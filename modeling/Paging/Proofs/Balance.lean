import Paging.Proofs.Standing

/-!
# Locks and references in balance

Whatever the callers and everybody else do and in whichever order their steps come, every process
keeps its standing (`World.kept`), and with it the books balance (`World.balanced`): a published
hold counts the references granted since it was published less those given back, and its space is
locked for it; a pending hold counts none and has one initiator inside; without a hold nothing is
locked. Locks and unlocks alternate for every process, each pair on one space, and together they
come to the spaces that are held.
-/

namespace Paging

/-! ### Counting deeds -/

/-- References granted since the process was last published, the first one included. -/
def granted (pid : Pid) (ds : List Deed) (n : Nat) : Nat :=
  ds.foldl (fun n d =>
    match d with
    | .published p => if p = pid then 1 else n
    | .joined p => if p = pid then n + 1 else n
    | _ => n) n

/-- References given back since then. -/
def returned (pid : Pid) (ds : List Deed) (n : Nat) : Nat :=
  ds.foldl (fun n d =>
    match d with
    | .published p => if p = pid then 0 else n
    | .left p => if p = pid then n + 1 else n
    | _ => n) n

def Deed.isLocked : Deed → Bool
  | locked _ _ => true
  | _ => false

def Deed.isUnlocked : Deed → Bool
  | unlocked _ _ => true
  | _ => false

/-- The deeds of a process that concern locks. -/
def lockDeeds (pid : Pid) (ds : List Deed) : List Deed :=
  ds.filter fun d => decide (d.pid = pid) && (d.isLocked || d.isUnlocked)

/-- A lock is followed by its unlock on the same space before there is another; the last one may
still be open. -/
inductive Alternating (pid : Pid) : List Deed → Prop where
  | closed : Alternating pid []
  | unclosed (space : SpaceId) : Alternating pid [.locked pid space]
  | pair (space : SpaceId) {rest : List Deed} (h : Alternating pid rest) :
      Alternating pid (.locked pid space :: .unlocked pid space :: rest)

namespace Account

variable {pid : Pid}

theorem after?_of_ne (a : Account) {d : Deed} (h : d.pid ≠ pid) : a.after? pid d = some a := by
  simp [after?, h]

theorem enter_none (pid : Pid) (ds : List Deed) : enter pid none ds = none := by
  induction ds with
  | nil => rfl
  | cons d ds ih => exact ih

theorem enter_cons {a b : Account} {d : Deed} {ds : List Deed}
    (h : enter pid (some a) (d :: ds) = some b) :
    ∃ c, a.after? pid d = some c ∧ enter pid (some c) ds = some b := by
  have hstep : enter pid (a.after? pid d) ds = some b := h
  cases hc : a.after? pid d with
  | none =>
    rw [hc, enter_none] at hstep
    cases hstep
  | some c =>
    rw [hc] at hstep
    exact ⟨c, rfl, hstep⟩

theorem after?_cases {a c : Account} {d : Deed} (hd : d.pid = pid) (h : a.after? pid d = some c) :
    (∃ s, a = .idle ∧ d = .locked pid s ∧ c = .locked s) ∨
    (∃ s, a = .locked s ∧ d = .published pid ∧ c = .held s 1) ∨
    (∃ s n, a = .held s (n + 1) ∧ d = .joined pid ∧ c = .held s (n + 2)) ∨
    (∃ s n, a = .held s (n + 1) ∧ d = .left pid ∧ c = .held s n) ∨
    (∃ s, a = .held s 0 ∧ d = .unlocked pid s ∧ c = .idle) := by
  subst hd
  simp only [after?, if_true] at h
  split at h
  · exact .inl ⟨_, rfl, rfl, (Option.some.inj h).symm⟩
  · exact .inr (.inl ⟨_, rfl, rfl, (Option.some.inj h).symm⟩)
  · exact .inr (.inr (.inl ⟨_, _, rfl, rfl, (Option.some.inj h).symm⟩))
  · exact .inr (.inr (.inr (.inl ⟨_, _, rfl, rfl, (Option.some.inj h).symm⟩)))
  · split at h
    · rename_i hr
      subst hr
      exact .inr (.inr (.inr (.inr ⟨_, rfl, rfl, (Option.some.inj h).symm⟩)))
    · cases h
  · cases h

/-- The references that are out are those granted less those returned. -/
def Counts (a : Account) (g r : Nat) : Prop := ∀ s n, a = .held s n → n + r = g

theorem counts_enter (ds : List Deed) {a b : Account} {g r : Nat} (ha : a.Counts g r)
    (h : enter pid (some a) ds = some b) : b.Counts (granted pid ds g) (returned pid ds r) := by
  induction ds generalizing a g r with
  | nil =>
    cases h
    exact ha
  | cons d ds ih =>
    obtain ⟨c, hc, hrest⟩ := enter_cons h
    have hnext : c.Counts (granted pid [d] g) (returned pid [d] r) := by
      by_cases hd : d.pid = pid
      · intro s n hs
        obtain ⟨s', rfl, rfl, rfl⟩ | ⟨s', rfl, rfl, rfl⟩ | ⟨s', k, rfl, rfl, rfl⟩ |
          ⟨s', k, rfl, rfl, rfl⟩ | ⟨s', rfl, rfl, rfl⟩ := after?_cases hd hc
        · cases hs
        · cases hs
          simp [granted, returned]
        · cases hs
          have := ha _ _ rfl
          simp only [granted, returned, List.foldl_cons, List.foldl_nil, if_true]
          omega
        · cases hs
          have := ha _ _ rfl
          simp only [granted, returned, List.foldl_cons, List.foldl_nil, if_true]
          omega
        · cases hs
      · rw [after?_of_ne a hd] at hc
        cases hc
        have hg : granted pid [d] g = g := by
          cases d <;> simp_all [granted, Deed.pid]
        have hr : returned pid [d] r = r := by
          cases d <;> simp_all [returned, Deed.pid]
        rw [hg, hr]
        exact ha
    exact ih hnext hrest

def outstanding (pid : Pid) : Account → List Deed
  | .idle => []
  | .locked s | .held s _ => [.locked pid s]

/-- While a lock is out, the deeds to come begin with its unlock. -/
theorem alternating_enter (ds : List Deed) {a b : Account}
    (h : enter pid (some a) ds = some b) :
    Alternating pid (a.outstanding pid ++ lockDeeds pid ds) := by
  induction ds generalizing a with
  | nil =>
    cases a with
    | idle => exact .closed
    | locked s => exact .unclosed s
    | held s n => exact .unclosed s
  | cons d ds ih =>
    obtain ⟨c, hc, hrest⟩ := enter_cons h
    have hnext := ih hrest
    by_cases hd : d.pid = pid
    · obtain ⟨s', rfl, rfl, rfl⟩ | ⟨s', rfl, rfl, rfl⟩ | ⟨s', k, rfl, rfl, rfl⟩ |
        ⟨s', k, rfl, rfl, rfl⟩ | ⟨s', rfl, rfl, rfl⟩ := after?_cases hd hc
      · simpa [lockDeeds, outstanding, Deed.pid, Deed.isLocked] using hnext
      · simpa [lockDeeds, outstanding, Deed.isLocked, Deed.isUnlocked] using hnext
      · simpa [lockDeeds, outstanding, Deed.isLocked, Deed.isUnlocked] using hnext
      · simpa [lockDeeds, outstanding, Deed.isLocked, Deed.isUnlocked] using hnext
      · have hpair := Alternating.pair s' hnext
        simpa [lockDeeds, outstanding, Deed.pid, Deed.isLocked, Deed.isUnlocked] using hpair
    · rw [after?_of_ne a hd] at hc
      cases hc
      have hskip : lockDeeds pid (d :: ds) = lockDeeds pid ds := by simp [lockDeeds, hd]
      rw [hskip]
      exact hnext

end Account

/-! ### Counting spaces -/

def AddressSpace.isHeld (s : AddressSpace) : Bool :=
  match s.holder with
  | some (.table _) => true
  | _ => false

theorem countP_modify {α : Type} (p : α → Bool) (f : α → α) (l : List α) {i : Nat} {a : α}
    (h : l[i]? = some a) :
    (l.modify i f).countP p + (p a).toNat = l.countP p + (p (f a)).toNat := by
  induction l generalizing i with
  | nil => simp at h
  | cons b l ih =>
    cases i with
    | zero =>
      simp only [List.getElem?_cons_zero, Option.some.injEq] at h
      subst h
      simp only [List.modify_zero_cons, List.countP_cons]
      cases p b <;> cases p (f b) <;> simp
    | succ i =>
      have hi := ih (i := i) (by simpa using h)
      simp only [List.modify_succ_cons, List.countP_cons]
      omega

namespace LockTable

variable {t : LockTable} {pid : Pid}

/-- How many spaces the table has locked. -/
def heldSpaces (t : LockTable) : Nat := t.spaces.countP AddressSpace.isHeld

/-- A lock counts if the table has it. -/
def weight : Option Holder → Nat
  | some (.table _) => 1
  | _ => 0

theorem heldSpaces_setHolder {s : SpaceId} (hs : s < t.spaces.length) (h : Option Holder) :
    (t.setHolder s h).heldSpaces + weight (t.holder? s) = t.heldSpaces + weight h := by
  obtain ⟨a, ha⟩ : ∃ a, t.spaces[s]? = some a := ⟨_, List.getElem?_eq_getElem hs⟩
  have hcount := countP_modify AddressSpace.isHeld (fun a => { a with holder := h }) t.spaces ha
  have hw : ∀ h : Option Holder, ∀ root,
      (AddressSpace.isHeld ⟨root, h⟩).toNat = weight h := by
    intro h root
    cases h with
    | none => rfl
    | some h => cases h <;> rfl
  have hold : t.holder? s = a.holder := by simp [holder?, ha]
  have ha' : a.isHeld.toNat = weight a.holder := hw a.holder a.root
  have hh := hw h a.root
  rw [hold]
  unfold heldSpaces setHolder
  simp only at hcount ⊢
  omega

theorem heldSpaces_take {s : SpaceId} (hs : t.isFree s = true) (pid : Pid) :
    (t.setHolder s (some (.table pid))).heldSpaces = t.heldSpaces + 1 := by
  obtain ⟨hlt, hnone⟩ := (isFree_iff t s).mp hs
  have h := heldSpaces_setHolder hlt (some (.table pid))
  rw [hnone] at h
  simpa [weight] using h

theorem heldSpaces_enterStep {phase : Phase} {s : Step} (hs : t.enterStep pid phase = some s) :
    s.table.heldSpaces = t.heldSpaces + (Deed.ofEntry pid phase s).countP Deed.isLocked ∧
      (Deed.ofEntry pid phase s).countP Deed.isUnlocked = 0 := by
  cases phase with
  | start =>
    cases hs
    have hst := started t pid
    generalize t.start pid = out at hst
    cases hst with
    | takes hf hp hfree => exact ⟨heldSpaces_take hfree pid, rfl⟩
    | waits hf hg | joins hf hg hc | overflows hf hg hc | unknown hf hp | blocks hf hp hfree =>
      exact ⟨rfl, rfl⟩
  | waiting gate =>
    simp only [enterStep] at hs
    split at hs <;> cases hs
    exact ⟨rfl, rfl⟩
  | blocked space gate =>
    simp only [enterStep] at hs
    split at hs <;> cases hs
    rename_i hfree
    exact ⟨heldSpaces_take hfree pid, rfl⟩
  | publishing space gate =>
    cases hs
    refine ⟨?_, rfl⟩
    show (t.publish pid).heldSpaces = t.heldSpaces
    unfold publish
    split <;> rfl
  | opening space gate =>
    cases hs
    exact ⟨rfl, rfl⟩

theorem heldSpaces_release {phases : List Phase} {a : Option Account}
    (h : Standing t pid phases a) :
    (t.release pid).2.heldSpaces +
        (Deed.ofRelease pid (t.release pid).1).countP Deed.isUnlocked = t.heldSpaces ∧
      (Deed.ofRelease pid (t.release pid).1).countP Deed.isLocked = 0 := by
  have hr := released t pid
  generalize t.release pid = out at hr
  cases hr with
  | notHeld hf | notAcquired hf hc | more hf hg hc => exact ⟨rfl, rfl⟩
  | @last hold hf hg hc =>
    have hholder := h.holder?_of_published hf hg
    have hset := heldSpaces_setHolder (lt_of_holder? t hholder) none
    rw [hholder] at hset
    exact ⟨hset, rfl⟩

theorem heldSpaces_moved (move : OutsideMove) (hmove : ∀ pid, move ≠ .release pid) :
    (t.moved move).heldSpaces = t.heldSpaces := by
  cases move with
  | lock space =>
    simp only [moved, outsideLock]
    split
    · rename_i hfree
      obtain ⟨hlt, hnone⟩ := (isFree_iff t space).mp hfree
      have h := heldSpaces_setHolder hlt (some .outsider)
      rw [hnone] at h
      exact h
    · rfl
  | unlock space =>
    simp only [moved, outsideUnlock]
    split
    · rename_i hout
      have h := heldSpaces_setHolder (lt_of_holder? t hout) none
      rw [hout] at h
      exact h
    · rfl
  | bindProcess pid space => rfl
  | insertProcess pid root =>
    show (t.spaces ++ [(⟨root, none⟩ : AddressSpace)]).countP AddressSpace.isHeld = _
    rw [List.countP_append]
    rfl
  | removeProcess pid => rfl
  | release pid => exact absurd rfl (hmove pid)

end LockTable

/-! ### What every move keeps -/

/-- Every process has its standing, and locks and unlocks come to the spaces that are held. -/
structure Kept (t : LockTable) (initiators : Pid → List Phase) (history : List Deed) : Prop where
  standing : ∀ pid, Standing t pid (initiators pid) (Account.enter pid (some .idle) history)
  tally : history.countP Deed.isLocked = history.countP Deed.isUnlocked + t.heldSpaces

theorem Deed.pid_ofEntry {pid : Pid} {phase : Phase} {s : Step} {d : Deed}
    (h : d ∈ ofEntry pid phase s) : d.pid = pid := by
  unfold ofEntry at h
  split at h <;> simp only [List.mem_cons, List.not_mem_nil, or_false] at h
  · rcases h with rfl | rfl <;> rfl
  · subst h
    rfl
  · subst h
    rfl
  · subst h
    rfl

theorem Deed.pid_ofRelease {pid : Pid} {es : List Event} {d : Deed} (h : d ∈ ofRelease pid es) :
    d.pid = pid := by
  unfold ofRelease at h
  split at h <;> simp only [List.mem_cons, List.not_mem_nil, or_false] at h
  · subst h
    rfl
  · rcases h with rfl | rfl <;> rfl

namespace Kept

variable {t : LockTable} {initiators : Pid → List Phase} {history : List Deed}

theorem release (h : Kept t initiators history) (pid : Pid) :
    Kept (t.release pid).2 initiators (history ++ Deed.ofRelease pid (t.release pid).1) where
  standing q := by
    rw [Account.enter_append]
    by_cases hq : pid = q
    · subst hq
      exact (h.standing pid).release
    · rw [Account.enter_of_ne _ fun d hd hne => hq ((Deed.pid_ofRelease hd).symm.trans hne)]
      exact (h.standing q).release_of_ne hq (h.standing pid)
  tally := by
    obtain ⟨hheld, hlocked⟩ := LockTable.heldSpaces_release (h.standing pid)
    have htally := h.tally
    rw [List.countP_append, List.countP_append, hlocked]
    omega

theorem moved (h : Kept t initiators history) (move : OutsideMove) :
    Kept (t.moved move) initiators (history ++ move.deeds t) := by
  by_cases hr : ∃ pid, move = .release pid
  · obtain ⟨pid, rfl⟩ := hr
    exact h.release pid
  · have hmove : ∀ pid, move ≠ .release pid := fun pid heq => hr ⟨pid, heq⟩
    have hdeeds : move.deeds t = [] := by
      cases move with
      | release pid => exact absurd rfl (hmove pid)
      | lock space | unlock space | bindProcess pid space | insertProcess pid root
      | removeProcess pid => rfl
    rw [hdeeds, List.append_nil]
    constructor
    case standing => exact fun pid => (h.standing pid).moved move hmove
    case tally => rw [LockTable.heldSpaces_moved move hmove, h.tally]

theorem setRoot (h : Kept t initiators history) (s : SpaceId) (root : PhysicalAddress) :
    Kept (t.setRoot s root) initiators history where
  standing pid := (h.standing pid).congr rfl fun r => by rw [LockTable.holder?_setRoot]
  tally := by
    rw [h.tally]
    congr 1
    unfold LockTable.heldSpaces LockTable.setRoot
    cases ha : t.spaces[s]? with
    | none =>
      have hle := List.getElem?_eq_none_iff.mp ha
      rw [List.modify_eq_self (by omega)]
    | some a =>
      have hcount := countP_modify AddressSpace.isHeld (fun a => { a with root := root })
        t.spaces ha
      have hsame : AddressSpace.isHeld { a with root := root } = a.isHeld := rfl
      simp only [hsame] at hcount
      exact (Nat.add_right_cancel hcount).symm

theorem enterStep {before after : Pid → List Phase} {pid : Pid} {phase : Phase} {s : Step}
    (h : Kept t (fun q => before q ++ (if pid = q then phase.pending else []) ++ after q) history)
    (hs : t.enterStep pid phase = some s) :
    Kept s.table (fun q => before q ++ (if pid = q then s.pending else []) ++ after q)
      (history ++ Deed.ofEntry pid phase s) where
  standing q := by
    have hq := h.standing q
    rw [Account.enter_append]
    by_cases hpq : pid = q
    · subst hpq
      simp only [if_true] at hq ⊢
      exact hq.enterStep hs
    · rw [Account.enter_of_ne _ fun d hd hne => hpq ((Deed.pid_ofEntry hd).symm.trans hne)]
      simp only [hpq, if_false] at hq ⊢
      exact hq.enterStep_of_ne hpq hs
  tally := by
    obtain ⟨hheld, hunlocked⟩ := LockTable.heldSpaces_enterStep hs
    have htally := h.tally
    rw [List.countP_append, List.countP_append, hunlocked]
    omega

end Kept

namespace World

variable {α : Type} {w w' : World α}

theorem initiators_split (m : Machine) (before after : List (Caller α)) (c : Caller α)
    (history : List Deed) (pid : Pid) :
    initiators ⟨m, before ++ c :: after, history⟩ pid =
      before.flatMap (Caller.pending pid) ++ c.pending pid ++
        after.flatMap (Caller.pending pid) := by
  simp [initiators]

theorem kept_call {m : Machine} {before after : List (Caller α)} {c : Caller α}
    {history : List Deed} {now : Effect (Caller α)}
    (h : Kept m.locks (initiators ⟨m, before ++ c :: after, history⟩) history)
    (hs : c.step m = some now) :
    Kept now.machine.locks
      (initiators ⟨now.machine, before ++ now.reply :: after, history ++ c.deeds m⟩)
      (history ++ c.deeds m) := by
  obtain ⟨rest, phase⟩ := c
  simp only [funext (initiators_split _ _ _ _ _)] at h ⊢
  cases rest with
  | done a => cases hs
  | act action next =>
    cases hs
    -- neither a caller that acts nor one that has just acted is an initiator
    have hbefore : ∀ q, Caller.pending q (⟨.act action next, phase⟩ : Caller α) = [] :=
      fun q => rfl
    have hafter : ∀ q, Caller.pending q (.fresh (next (m.perform action).reply)) = [] :=
      fun q => Caller.pending_fresh q _
    simp only [hbefore] at h
    simp only [hafter]
    obtain ⟨pid, rfl, hlocks⟩ | ⟨s, root, rfl, hlocks⟩ | ⟨hne, hlocks⟩ := m.locks_perform action
    · exact h.release pid
    · have hdeeds : Caller.deeds ⟨.act (.setRoot s root) next, phase⟩ m = [] := rfl
      rw [hdeeds, List.append_nil]
      exact h.setRoot s root
    · have hdeeds : Caller.deeds ⟨.act action next, phase⟩ m = [] := by
        cases action with
        | release pid => exact absurd rfl (hne pid)
        | readRoot s | setRoot s root | readWord a | writeWord a v | readBytes a n
        | writeBytes a bs | flush v | strategy | switchStrategy id | readRegister
        | writeRegister v | note n => rfl
      rw [hdeeds, List.append_nil, hlocks]
      exact h
  | enter pid next =>
    simp only [Caller.step, Option.map_eq_some_iff] at hs
    obtain ⟨s, hstep, rfl⟩ := hs
    have hbefore : ∀ q, Caller.pending q (⟨.enter pid next, phase⟩ : Caller α) =
        if pid = q then phase.pending else [] := fun q => rfl
    have hdeeds : Caller.deeds ⟨.enter pid next, phase⟩ m = Deed.ofEntry pid phase s := by
      simp only [Caller.deeds, hstep]
      rfl
    simp only [hbefore] at h
    have hkept := h.enterStep hstep
    rw [hdeeds]
    cases hp : s.progress with
    | next phase' =>
      have hpending : s.pending = phase'.pending := by simp [Step.pending, hp]
      rw [hpending] at hkept
      exact hkept
    | granted space =>
      have hpending : s.pending = [] := by simp [Step.pending, hp]
      simp only [hpending, ite_self] at hkept
      simp only [Caller.pending_fresh]
      exact hkept
    | refused e =>
      have hpending : s.pending = [] := by simp [Step.pending, hp]
      simp only [hpending, ite_self] at hkept
      simp only [Caller.pending_fresh]
      exact hkept

theorem kept_move (hm : Move w w') (h : Kept w.machine.locks w.initiators w.history) :
    Kept w'.machine.locks w'.initiators w'.history := by
  cases hm with
  | call hs => exact kept_call h hs
  | @arrive m callers history p =>
    have hsame : initiators ⟨m, callers ++ [.fresh p], history⟩ =
        initiators ⟨m, callers, history⟩ := by
      funext pid
      simp [initiators, Caller.pending_fresh]
    rw [hsame]
    exact h
  | outside move => exact h.moved move

theorem kept (h : Reachable w) : Kept w.machine.locks w.initiators w.history := by
  induction h with
  | @start m hf hh =>
    constructor
    case standing => exact fun pid => .absent (hf pid) fun s => hh s pid
    case tally =>
      -- no space is held by the table at the start
      have hzero : m.locks.heldSpaces = 0 := by
        apply List.countP_eq_zero.mpr
        intro a ha hheld
        obtain ⟨s, hs, hget⟩ := List.getElem_of_mem ha
        cases hholder : a.holder with
        | none => simp [AddressSpace.isHeld, hholder] at hheld
        | some holder =>
          cases holder with
          | outsider => simp [AddressSpace.isHeld, hholder] at hheld
          | table pid =>
            apply hh s pid
            simp [LockTable.holder?, List.getElem?_eq_getElem hs, hget, hholder]
      show 0 = 0 + m.locks.heldSpaces
      omega
  | move hw hm ih => exact kept_move hm ih

/-- The books of a world balance. -/
structure Balanced (w : World α) : Prop where
  /-- A published hold counts its references, and exactly its space is locked for the process. -/
  published : ∀ pid hold, w.machine.locks.holds.find? pid = some hold → hold.gate = none →
    1 ≤ hold.count ∧
      hold.count + returned pid w.history 0 = granted pid w.history 0 ∧
      (∀ s, w.machine.locks.holder? s = some (.table pid) ↔ s = hold.space) ∧
      Account.enter pid (some .idle) w.history = some (.held hold.space hold.count)
  /-- A pending hold counts none and has one initiator inside, with or without the lock. -/
  pending : ∀ pid hold gate, w.machine.locks.holds.find? pid = some hold →
    hold.gate = some gate →
    hold.count = 0 ∧
      (w.initiators pid = [.blocked hold.space gate] ∧
          (∀ s, w.machine.locks.holder? s ≠ some (.table pid)) ∨
        w.initiators pid = [.publishing hold.space gate] ∧
          (∀ s, w.machine.locks.holder? s = some (.table pid) ↔ s = hold.space))
  absent : ∀ pid, w.machine.locks.holds.find? pid = none →
    w.initiators pid = [] ∧ ∀ s, w.machine.locks.holder? s ≠ some (.table pid)
  tally : w.history.countP Deed.isLocked =
    w.history.countP Deed.isUnlocked + w.machine.locks.heldSpaces
  alternating : ∀ pid, Alternating pid (lockDeeds pid w.history)

theorem balanced (h : w.Reachable) : w.Balanced where
  published pid hold hf hg := by
    have hst := (kept h).standing pid
    generalize hacc : Account.enter pid (some .idle) w.history = a at hst
    generalize w.initiators pid = phases at hst
    cases hst with
    | absent hf' hh | waiting hf' hh | taken hf' hh =>
      rw [hf] at hf'
      cases hf'
      try cases hg
    | @held space n hf' hh =>
      rw [hf] at hf'
      cases hf'
      have hidle : (Account.idle).Counts 0 0 := nofun
      have hcount := Account.counts_enter w.history hidle hacc _ _ rfl
      exact ⟨Nat.le_add_left 1 n, hcount, hh, rfl⟩
  pending pid hold gate hf hg := by
    have hst := (kept h).standing pid
    generalize Account.enter pid (some .idle) w.history = a at hst
    generalize w.initiators pid = phases at hst
    cases hst with
    | absent hf' hh | held hf' hh =>
      rw [hf] at hf'
      cases hf'
      try cases hg
    | waiting hf' hh =>
      rw [hf] at hf'
      cases hf'
      cases hg
      exact ⟨rfl, .inl ⟨rfl, hh⟩⟩
    | taken hf' hh =>
      rw [hf] at hf'
      cases hf'
      cases hg
      exact ⟨rfl, .inr ⟨rfl, hh⟩⟩
  absent pid hf := by
    have hst := (kept h).standing pid
    generalize Account.enter pid (some .idle) w.history = a at hst
    generalize w.initiators pid = phases at hst
    cases hst with
    | absent hf' hh => exact ⟨rfl, hh⟩
    | waiting hf' hh | taken hf' hh | held hf' hh =>
      rw [hf] at hf'
      cases hf'
  tally := (kept h).tally
  alternating pid := by
    have hst := (kept h).standing pid
    obtain ⟨a, ha⟩ : ∃ a, Account.enter pid (some .idle) w.history = some a := by
      generalize Account.enter pid (some .idle) w.history = a at hst
      generalize w.initiators pid = phases at hst
      cases hst with
      | absent hf hh | waiting hf hh | taken hf hh | held hf hh => exact ⟨_, rfl⟩
    exact Account.alternating_enter w.history ha

/-- One process whose space an outsider locks just before a caller comes for it, so that the caller
is blocked behind its pending hold. -/
theorem balanced_contended : ∃ w : World (Except Error SpaceId),
    w.Reachable ∧ w.initiators 1 = [.blocked 0 0] ∧ w.Balanced := by
  let t := (LockTable.empty.insertProcess 1 .zero).2
  let m : Machine := ⟨t, .emulated 0, .custom, none⟩
  have hstart : Reachable (⟨m, [], []⟩ : World (Except Error SpaceId)) := by
    refine .start (fun pid => rfl) fun s pid => ?_
    cases s with
    | zero => nofun
    | succ s => nofun
  have hcall := ((hstart.move (.outside (.lock 0))).move (.arrive (.enter 1 .done))).move
    (@Move.call _ _ [] [] _ _ _ rfl)
  exact ⟨_, hcall, rfl, balanced hcall⟩

end World

end Paging
