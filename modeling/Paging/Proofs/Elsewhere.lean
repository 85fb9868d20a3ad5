import Paging.Proofs.Courses
import Paging.Proofs.Footprint
import Paging.Proofs.Framing
import Paging.Proofs.Neutrality

/-!
# Edits elsewhere

What an address resolves to depends on the space that its process gets, on the root stored there and
on the words that the walk looks at (`Engine.reply_eq`). An edit changes no root
(`Program.spaces_run`), leaves every process its place, save for what others do while it waits
(`Op.Neutral.samePlace`), and keeps the words that it does not store. It therefore goes unnoticed
by every walk that does not look at a word it stored (`EntryEdit.perform_unnoticed`).
-/

namespace Paging

variable {α : Type}

/-- Nobody else moves, so that whoever is blocked waits for ever. -/
def Bystander.idle : Bystander := fun _ _ t => ([], t)

/-! ### Roots -/

namespace LockTable

variable {t : LockTable} {others : Bystander} {pid : Pid}

theorem length_foldl_moved (moves : List OutsideMove) (t : LockTable) :
    t.spaces.length ≤ (moves.foldl moved t).spaces.length := by
  induction moves generalizing t with
  | nil => exact Nat.le_refl _
  | cons move rest ih => exact Nat.le_trans (length_spaces_moved move) (ih _)

/-- No space goes away when a caller enters, and none gets another root. -/
theorem spaces_of_enterAlone (ho : others.Honest) {now : Entered}
    (h : t.enterAlone others pid = some now) :
    t.spaces.length ≤ now.table.spaces.length ∧
      ∀ r < t.spaces.length, now.table.root r = t.root r := by
  have hstart := length_spaces_start t pid
  obtain ⟨s, _, rfl⟩ | ⟨err, _, rfl⟩ | ⟨s, gate, _, _, rfl⟩ := enterAlone_cases h
  · exact ⟨Nat.le_of_eq hstart.symm, fun r _ => root_start t pid r⟩
  · exact ⟨Nat.le_of_eq hstart.symm, fun r _ => root_start t pid r⟩
  · refine ⟨?_, fun r hr => root_of_grants ho ⟨_, h⟩ hr⟩
    obtain ⟨moves, hmoves⟩ := ho pid s (t.start pid).table
    have hmoved := length_foldl_moved moves (t.start pid).table
    rw [← hmoves, hstart] at hmoved
    have hpublish : ∀ t' : LockTable, (t'.publish pid).spaces = t'.spaces := by
      intro t'
      unfold publish
      split <;> rfl
    simp only [hpublish, setHolder, List.length_modify]
    exact hmoved

end LockTable

theorem Machine.spaces_perform (m : Machine) (action : Action) :
    (m.perform action).machine.locks.spaces.length = m.locks.spaces.length ∧
      ((∀ s root, action ≠ .setRoot s root) →
        ∀ r, (m.perform action).machine.locks.root r = m.locks.root r) := by
  obtain ⟨pid, rfl, hlocks⟩ | ⟨s, root, rfl, hlocks⟩ | ⟨_, hlocks⟩ := m.locks_perform action
  · rw [hlocks]
    exact ⟨LockTable.length_spaces_release m.locks pid,
      fun _ r => LockTable.root_release m.locks pid r⟩
  · rw [hlocks]
    exact ⟨List.length_modify .., fun hne => absurd rfl (hne s root)⟩
  · rw [hlocks]
    exact ⟨rfl, fun _ _ => rfl⟩

/-- A run that sets no root leaves all spaces that were there theirs. -/
theorem Program.spaces_run {others : Bystander} (ho : others.Honest) {p : Program α} {m : Machine}
    {eff : Effect α} (h : p.run others m = some eff)
    (hset : ∀ x ∈ p.trace others m, x.setsRoot = false) :
    m.locks.spaces.length ≤ eff.machine.locks.spaces.length ∧
      ∀ r < m.locks.spaces.length, eff.machine.locks.root r = m.locks.root r := by
  induction p generalizing m eff with
  | done a =>
    cases h
    exact ⟨Nat.le_refl _, fun _ _ => rfl⟩
  | act action next ih =>
    rw [run_act] at h
    obtain ⟨later, hrun, rfl⟩ := Option.map_eq_some_iff.mp h
    obtain ⟨hlength, hroot⟩ := m.spaces_perform action
    have hne : ∀ s root, action ≠ .setRoot s root := by
      rintro s root rfl
      cases hset _ (List.mem_cons_self ..)
    obtain ⟨hlength', hroot'⟩ := ih _ hrun fun x hx => hset x (List.mem_cons_of_mem _ hx)
    rw [hlength] at hlength' hroot'
    exact ⟨hlength', fun r hr => (hroot' r hr).trans (hroot hne r)⟩
  | enter pid next ih =>
    rw [run_enter] at h
    obtain ⟨now, hen, hmap⟩ := Option.bind_eq_some_iff.mp h
    obtain ⟨later, hrun, rfl⟩ := Option.map_eq_some_iff.mp hmap
    obtain ⟨hlength, hroot⟩ := LockTable.spaces_of_enterAlone ho hen
    simp only [trace, hen] at hset
    obtain ⟨hlength', hroot'⟩ := ih _ hrun fun x hx => hset x (List.mem_cons_of_mem _ hx)
    refine ⟨Nat.le_trans hlength hlength', fun r hr => ?_⟩
    exact (hroot' r (Nat.lt_of_lt_of_le hr hlength)).trans (hroot r hr)

/-- An edit never sets a root. -/
theorem EntryEdit.only_perform (d : EntryEdit) (e : Engine) (vaddr : VirtualAddress) (pid : Pid) :
    Op.Only (fun x => !x.setsRoot) (d.perform e vaddr pid) := by
  have hlook : ∀ x : Performed, x.isLook = true → (!x.setsRoot) = true := by
    intro x hx
    rw [(Performed.of_isLook hx).2]
    rfl
  have hstore : ∀ x : Performed, x.isStore = true → (!x.setsRoot) = true := by
    intro x hx
    rw [(Performed.of_isStore hx).2]
    rfl
  have hflush : Op.Only (fun x => !x.setsRoot) (Op.flush vaddr) :=
    .act (.flush vaddr) .ok rfl fun _ => rfl
  rw [perform_eq]
  refine Op.Only.bind (.holding (fun _ => rfl) rfl fun _ => ?_) fun _ => .pure _
  refine ((e.only_walk vaddr pid).mono hlook).bind fun visits => ?_
  refine ((e.only_writeLevels visits d.mask d.patchFor _ _).mono hstore).lift_run.bind fun r => ?_
  exact hflush.bind fun _ => .mk_pure r

/-! ### Places of processes -/

namespace LockTable

/-- What a caller for a process is told once it gets through: the space that is its, or why it gets
none. Nobody gets through while a hold is pending. -/
def goal? (t : LockTable) (pid : Pid) : Option (Except Error SpaceId) :=
  match t.holds.find? pid with
  | some hold =>
    if hold.gate.isSome then none
    else if hold.count + 1 < countLimit then some (.ok hold.space)
    else some (.error (.lockOverflow pid))
  | none =>
    match t.processes.find? pid with
    | some s => some (.ok s)
    | none => some (.error (.processNotFound pid))

/-- The process is where it was: it is held as before, names the space that it named, and that space
is free if it was. -/
structure SamePlace (t t' : LockTable) (pid : Pid) : Prop where
  process : t'.processes.find? pid = t.processes.find? pid
  hold : t'.holds.find? pid = t.holds.find? pid
  free : ∀ s, t.processes.find? pid = some s → t.isFree s = true → t'.isFree s = true

variable {t t' : LockTable} {others : Bystander} {pid : Pid}

theorem goal?_of_enterAlone {now : Entered} (h : t.enterAlone others pid = some now) :
    t.goal? pid = some now.reply := by
  have hst := started t pid
  unfold goal?
  obtain ⟨s, hp, rfl⟩ | ⟨err, hp, rfl⟩ | ⟨s, gate, hp, _, rfl⟩ := enterAlone_cases h
  · generalize t.start pid = out at hst hp
    cases hst with
    | joins hf hg hc =>
      cases hp
      simp [hf, hg, hc]
    | takes hf hpr hs =>
      cases hp
      simp [hf, hpr]
    | waits hf hg | overflows hf hg hc | unknown hf hpr | blocks hf hpr hs => cases hp
  · generalize t.start pid = out at hst hp
    cases hst with
    | overflows hf hg hc =>
      cases hp
      simp [hf, hg, hc]
    | unknown hf hpr =>
      cases hp
      simp [hf, hpr]
    | waits hf hg | joins hf hg hc | takes hf hpr hs | blocks hf hpr hs => cases hp
  · generalize t.start pid = out at hst hp
    cases hst with
    | blocks hf hpr hs =>
      cases hp
      simp [hf, hpr]
    | waits hf hg | joins hf hg hc | overflows hf hg hc | unknown hf hpr | takes hf hpr hs =>
      cases hp

namespace SamePlace

theorem of_sameLocks (h : t.SameLocks t') (pid : Pid) : t.SamePlace t' pid where
  process := by rw [h.processes]
  hold := h.holds pid
  free s _ hs := by
    rw [isFree_iff] at hs ⊢
    rw [h.spaces, h.holder]
    exact hs

theorem trans {t'' : LockTable} (h : t.SamePlace t' pid) (h' : t'.SamePlace t'' pid) :
    t.SamePlace t'' pid where
  process := h'.process.trans h.process
  hold := h'.hold.trans h.hold
  free s hp hs := h'.free s (h.process.trans hp) (h.free s hp hs)

theorem goal? (h : t.SamePlace t' pid) : t'.goal? pid = t.goal? pid := by
  simp only [LockTable.goal?, h.hold, h.process]

/-- Where nobody had to wait, nobody has to. -/
theorem isSome_enterAlone (h : t.SamePlace t' pid)
    (hen : (t.enterAlone .idle pid).isSome = true) (others : Bystander) :
    (t'.enterAlone others pid).isSome = true := by
  have hst := started t pid
  unfold enterAlone at hen
  generalize t.start pid = out at hst hen
  cases hst with
  | waits hf hg => cases hen
  | joins hf hg hc =>
    rw [enterAlone_held others (h.hold.trans hf) hg hc]
    rfl
  | overflows hf hg hc =>
    rw [enterAlone_overflow others (h.hold.trans hf) hg hc]
    rfl
  | unknown hf hp =>
    simp [enterAlone, start, h.hold.trans hf, h.process.trans hp]
  | takes hf hp hs =>
    simp [enterAlone, start, h.hold.trans hf, h.process.trans hp, h.free _ hp hs]
  | @blocks s hf hp hs =>
    have hidle : (Bystander.idle pid s { t with
        holds := t.holds.insert pid ⟨s, 0, some t.gates.length⟩
        gates := t.gates ++ [false] }).2.isFree s = false := hs
    simp [enterStep, hidle] at hen

end SamePlace

/-- What happens to a process while a hold is pending happens without that hold as well. -/
theorem Beside.samePlace {u u' : LockTable} {hold : Hold} {q : Pid} (h : t.Beside pid hold t')
    (hu : u.Beside pid hold u') (hq : t'.SamePlace u' q) : t.SamePlace u q where
  process := by rw [← hu.processes, hq.process, h.processes]
  hold := by
    by_cases hpq : pid = q
    · rw [← hpq, hu.unheld, h.unheld]
    · rw [← hu.holds q hpq, hq.hold, h.holds q hpq]
  free s hp hs := by
    have hfree := hq.free s
    simp only [isFree, hu.spaces, h.spaces, h.processes] at hfree
    exact hfree hp hs

end LockTable

/-- A call on the space of one process leaves every process its place, if the others do so while the
call is blocked. -/
theorem Op.Neutral.samePlace {op : Op α} {others : Bystander} {pid q : Pid} {m : Machine}
    (h : op.Neutral others pid m) (ho : others.Honest) {eff : Effect (Except Error α)}
    (hrun : op.runOn others m = some eff)
    (hleft : ∀ s gate, (m.locks.start pid).progress = .next (.blocked s gate) →
      (m.locks.start pid).table.SamePlace (others pid s (m.locks.start pid).table).2 q) :
    m.locks.SamePlace eff.machine.locks q := by
  have heff : ∀ {eff'}, op.runOn others m = some eff' → eff' = eff :=
    fun h => Option.some.inj (h.symm.trans hrun)
  cases hf : m.locks.holds.find? pid with
  | some hold =>
    cases hg : hold.gate with
    | none =>
      obtain ⟨eff', hrun', hsame, _⟩ := h.held hold hf hg
      cases heff hrun'
      exact .of_sameLocks hsame q
    | some gate =>
      rw [(h.pending hold gate hf hg).1] at hrun
      cases hrun
  | none =>
    cases hp : m.locks.processes.find? pid with
    | none =>
      cases heff (h.unknown hf hp)
      exact .of_sameLocks (.refl _) q
    | some s =>
      cases hs : m.locks.isFree s with
      | true =>
        obtain ⟨eff', _, hrun', hsame, _⟩ := h.free s hf hp hs
        cases heff hrun'
        exact .of_sameLocks hsame q
      | false =>
        obtain ⟨moves, hmoves⟩ := ho pid s (m.locks.start pid).table
        have hblocked : (m.locks.start pid).progress = .next (.blocked s m.locks.gates.length) := by
          simp [LockTable.start, hf, hp, hs]
        have hbeside := LockTable.Beside.start hf hp hs
        have hplace := hleft s _ hblocked
        rw [hmoves] at hplace
        have hmoved := hbeside.samePlace (hbeside.foldl_moved moves rfl) hplace
        have htaken := h.taken s moves hf hp hs hmoves
        split at htaken
        · obtain ⟨eff', _, hrun', hsame, _⟩ := htaken
          cases heff hrun'
          exact hmoved.trans (.of_sameLocks hsame q)
        · rw [htaken] at hrun
          cases hrun

/-! ### Resolutions -/

namespace Engine

variable {e : Engine} {v : VirtualAddress} {q : Pid} {others : Bystander} {m : Machine}

/-- What a resolution answers if it ends, and what it reads. -/
theorem reply_of_resolve (ho : others.Honest) {eff : Effect (Except Error EntrySet)}
    (h : (e.resolve v q).runOn others m = some eff) :
    (∃ err, m.locks.goal? q = some (.error err) ∧ eff.reply = .error err) ∨
    ∃ s, m.locks.goal? q = some (.ok s) ∧ (s < m.locks.spaces.length →
      eff.reply = (e.visited v m.memory (m.locks.root s)).map (.ofVisits q v) ∧
      Performed.wordsRead ((e.resolve v q).traceOn others m) =
        (e.probes v m.memory (m.locks.root s)).map Prod.snd) := by
  cases hen : m.locks.enterAlone others q with
  | none =>
    have hwalk : (e.walk v q).runOn others m = none := Op.runOn_holding_none others _ hen
    rw [resolve, Op.runOn_bind, hwalk] at h
    cases h
  | some now =>
    obtain ⟨events, held, reply⟩ := now
    have hgoal := LockTable.goal?_of_enterAlone hen
    cases reply with
    | error err =>
      have hwalk : (e.walk v q).runOn others m = _ := Op.runOn_holding_refused others _ hen rfl
      rw [resolve, Op.runOn_bind_error others hwalk] at h
      cases h
      exact .inl ⟨err, hgoal, rfl⟩
    | ok s =>
      refine .inr ⟨s, hgoal, fun hlt => ?_⟩
      have hgr : m.locks.Grants others q s held := ⟨events, hen⟩
      obtain ⟨es, hrun⟩ := e.runOn_resolve v others hgr
      rw [h] at hrun
      cases hrun
      rw [e.wordsRead_resolve v others hgr, LockTable.root_of_grants ho hgr hlt]
      exact ⟨rfl, rfl⟩

/-- Resolutions on two machines answer the same if the process gets the same space on both, with the
same root, and the words that the first one looks at are there for the second. -/
theorem reply_eq {m' : Machine} {others' : Bystander} (ho : others.Honest) (ho' : others'.Honest)
    (hgoal : m'.locks.goal? q = m.locks.goal? q)
    (hspace : ∀ s, m.locks.goal? q = some (.ok s) → s < m.locks.spaces.length)
    (hlength : m.locks.spaces.length ≤ m'.locks.spaces.length)
    (hroots : ∀ s < m.locks.spaces.length, m'.locks.root s = m.locks.root s)
    {eff eff' : Effect (Except Error EntrySet)} (h : (e.resolve v q).runOn others m = some eff)
    (h' : (e.resolve v q).runOn others' m' = some eff')
    (hwords : ∀ a ∈ Performed.wordsRead ((e.resolve v q).traceOn others m), a.Aligned →
      m'.memory.readWord a = m.memory.readWord a) : eff'.reply = eff.reply := by
  obtain ⟨err, hrefused, hreply⟩ | ⟨s, hgranted, hanswer⟩ := reply_of_resolve ho h
  · obtain ⟨err', hrefused', hreply'⟩ | ⟨s', hgranted', _⟩ := reply_of_resolve ho' h'
    · rw [hgoal, hrefused] at hrefused'
      cases hrefused'
      rw [hreply, hreply']
    · rw [hgoal, hrefused] at hgranted'
      cases hgranted'
  · obtain ⟨err', hrefused', _⟩ | ⟨s', hgranted', hanswer'⟩ := reply_of_resolve ho' h'
    · rw [hgoal, hgranted] at hrefused'
      cases hrefused'
    · rw [hgoal, hgranted] at hgranted'
      cases hgranted'
      have hlt := hspace s hgranted
      obtain ⟨hreply, hreads⟩ := hanswer hlt
      obtain ⟨hreply', _⟩ := hanswer' (Nat.lt_of_lt_of_le hlt hlength)
      rw [hreads] at hwords
      -- the second walk starts from the same root and finds the same words
      have hprobes : ∀ p ∈ e.probes v m.memory (m.locks.root s),
          m'.memory.readWord p.2 = m.memory.readWord p.2 := fun p hp =>
        hwords _ (List.mem_map_of_mem hp) (e.aligned_probes v _ _ p hp)
      rw [hreply, hreply', hroots s hlt, (e.visited_congr fun p hp => ⟨rfl, hprobes p hp⟩).1]

theorem isSome_resolve : ((e.resolve v q).runOn others m).isSome =
    (m.locks.enterAlone others q).isSome := by
  cases hen : m.locks.enterAlone others q with
  | none =>
    have hwalk : (e.walk v q).runOn others m = none := Op.runOn_holding_none others _ hen
    rw [resolve, Op.runOn_bind, hwalk]
    rfl
  | some now =>
    obtain ⟨events, held, reply⟩ := now
    cases reply with
    | error err =>
      have hwalk : (e.walk v q).runOn others m = _ := Op.runOn_holding_refused others _ hen rfl
      rw [resolve, Op.runOn_bind_error others hwalk]
      rfl
    | ok s =>
      obtain ⟨es, hrun⟩ := e.runOn_resolve v others ⟨events, hen⟩
      rw [hrun]
      rfl

/-- Whatever becomes of a walk, the words that it reads are aligned. -/
theorem aligned_wordsRead (e : Engine) (v : VirtualAddress) (q : Pid) (others : Bystander)
    (m : Machine) : ∀ a ∈ Performed.wordsRead ((e.walk v q).traceOn others m), a.Aligned := by
  cases hen : m.locks.enterAlone others q with
  | none =>
    have htrace : (e.walk v q).traceOn others m = [] := Op.traceOn_holding_none others _ hen
    rw [htrace]
    exact nofun
  | some now =>
    obtain ⟨events, held, reply⟩ := now
    cases reply with
    | error err =>
      have htrace : (e.walk v q).traceOn others m = _ :=
        Op.traceOn_holding_refused others _ hen rfl
      rw [htrace]
      exact nofun
    | ok s =>
      rw [e.wordsRead_walk v others ⟨events, hen⟩]
      intro a ha
      obtain ⟨p, hp, rfl⟩ := List.mem_map.mp ha
      exact e.aligned_probes v _ _ p hp

end Engine

/-- A process that is held has its space, and one that is not names it. -/
theorem World.lt_of_goal? {w : World α} (hw : w.Reachable) {q : Pid}
    (hspace : ∀ s, w.machine.locks.processes.find? q = some s → s < w.machine.locks.spaces.length)
    {s : SpaceId} (h : w.machine.locks.goal? q = some (.ok s)) :
    s < w.machine.locks.spaces.length := by
  unfold LockTable.goal? at h
  cases hf : w.machine.locks.holds.find? q with
  | some hold =>
    have hst := (World.kept hw).standing q
    simp only [hf] at h
    split at h
    · cases h
    · rename_i hg
      have hgate : hold.gate = none := by simpa using hg
      split at h
      · cases h
        exact LockTable.lt_of_holder? _ (hst.holder?_of_published hf hgate)
      · cases h
  | none =>
    simp only [hf] at h
    cases hp : w.machine.locks.processes.find? q with
    | none =>
      rw [hp] at h
      cases h
    | some r =>
      rw [hp] at h
      cases h
      exact hspace s hp

/-! ### Edits -/

/-- Two aligned words are one or have no byte in common. -/
theorem PhysicalAddress.Aligned.apart {a b : PhysicalAddress} (ha : a.Aligned) (hb : b.Aligned) :
    a = b ∨ a.toNat + 8 ≤ b.toNat ∨ b.toNat + 8 ≤ a.toNat := by
  by_cases hab : a.toNat = b.toNat
  · obtain ⟨a⟩ := a
    obtain ⟨b⟩ := b
    exact .inl (congrArg _ (UInt64.toNat_inj.mp hab))
  · unfold PhysicalAddress.Aligned at ha hb
    right
    omega

/-- The words that walks read, be it one walk or two, are the same or have no byte in common. -/
def Engine.WordsApart : Prop :=
  ∀ (e₁ e₂ : Engine) (v₁ v₂ : VirtualAddress) (p₁ p₂ : Pid) (o₁ o₂ : Bystander)
    (m₁ m₂ : Machine), ∀ a ∈ Performed.wordsRead ((e₁.walk v₁ p₁).traceOn o₁ m₁),
    ∀ b ∈ Performed.wordsRead ((e₂.walk v₂ p₂).traceOn o₂ m₂),
    a = b ∨ a.toNat + 8 ≤ b.toNat ∨ b.toNat + 8 ≤ a.toNat

theorem Engine.wordsApart : WordsApart :=
  fun e₁ e₂ v₁ v₂ p₁ p₂ o₁ o₂ m₁ m₂ a ha b hb =>
    (e₁.aligned_wordsRead v₁ p₁ o₁ m₁ a ha).apart (e₂.aligned_wordsRead v₂ p₂ o₂ m₂ b hb)

namespace EntryEdit

/-- An edit, successful or not, makes no difference to the resolution of an address whose walk looks
at none of the words that the edit stored. While the edit waits for a lock, others have to leave the
process of that address its place (`hleft`). -/
theorem perform_unnoticed {w : World α} (hw : w.Reachable) {e : Engine}
    {others : Bystander} (ho : others.Honest) (d : EntryEdit) {vaddr : VirtualAddress} {pid : Pid}
    {eff : Effect (Except Error EditReport)}
    (h : (d.perform e vaddr pid).runOn others w.machine = some eff) {v : VirtualAddress} {q : Pid}
    (hspace : ∀ s, w.machine.locks.processes.find? q = some s → s < w.machine.locks.spaces.length)
    (hleft : ∀ s gate, (w.machine.locks.start pid).progress = .next (.blocked s gate) →
      (w.machine.locks.start pid).table.SamePlace
        (others pid s (w.machine.locks.start pid).table).2 q)
    {others₁ others₂ : Bystander} (ho₁ : others₁.Honest) (ho₂ : others₂.Honest)
    {before : Effect (Except Error EntrySet)}
    (hbefore : (e.resolve v q).runOn others₁ w.machine = some before)
    (hapart : ∀ a ∈ Performed.wordsRead ((e.resolve v q).traceOn others₁ w.machine),
      a ∉ Performed.wordsStored ((d.perform e vaddr pid).traceOn others w.machine)) :
    Engine.WordsApart ∧
    (∀ later, (e.resolve v q).runOn others₂ eff.machine = some later →
      later.reply = before.reply) ∧
    (((e.resolve v q).runOn .idle w.machine).isSome = true →
      ((e.resolve v q).runOn others₂ eff.machine).isSome = true) := by
  have hneutral : (d.perform e vaddr pid).Neutral others pid w.machine := by
    obtain ⟨P, body, heq, hbody⟩ := d.enclosed_perform e vaddr pid
    rw [heq]
    exact Op.neutral_holding hbody fun hold => World.count_pos hw
  have hplace := hneutral.samePlace ho h hleft
  refine ⟨Engine.wordsApart, fun later hlater => ?_, fun hidle => ?_⟩
  · obtain ⟨hkept, _⟩ := (OpLogic.framed pid w.machine.memory).perform e vaddr d others w.machine
      eff (.refl _) h
    obtain ⟨hlength, hroots⟩ := Program.spaces_run ho h fun x hx => by
      simpa using d.only_perform e vaddr pid _ _ (Program.path_trace h) x hx
    exact Engine.reply_eq ho₁ ho₂ hplace.goal? (fun s => World.lt_of_goal? hw hspace) hlength hroots
      hbefore hlater fun a ha haligned => hkept.words a haligned (hapart a ha)
  · rw [Engine.isSome_resolve] at hidle ⊢
    exact hplace.isSome_enterAlone hidle others₂

/-- The edit writes the second entry of the table that maps itself; the walk only looks at the
first. -/
theorem perform_unnoticed_selfMapped : ∃ eff before,
    World.Reachable (⟨.selfMapped, [], []⟩ : World Unit) ∧
      ((setLastBit 3).perform ⟨.x86_64, .smallest⟩ ⟨0x10⟩ 1).runOn .yielding Machine.selfMapped =
        some eff ∧
      (Engine.resolve ⟨.x86_64, .smallest⟩ ⟨0⟩ 1).runOn .yielding Machine.selfMapped =
        some before ∧
      ∃ later, (Engine.resolve ⟨.x86_64, .smallest⟩ ⟨0⟩ 1).runOn .yielding eff.machine =
        some later ∧ later.reply = before.reply := by
  have hedit : ((setLastBit 3).perform ⟨.x86_64, .smallest⟩ ⟨0x10⟩ 1).runOn .yielding
      Machine.selfMapped = some ⟨_, _, _⟩ := rfl
  have hresolve : (Engine.resolve ⟨.x86_64, .smallest⟩ ⟨0⟩ 1).runOn .yielding
      Machine.selfMapped = some ⟨_, _, _⟩ := rfl
  have hread : Performed.wordsRead ((Engine.resolve ⟨.x86_64, .smallest⟩ ⟨0⟩ 1).traceOn .yielding
      Machine.selfMapped) = [⟨0x1000⟩, ⟨0x1000⟩] := rfl
  have hstored : Performed.wordsStored (((setLastBit 3).perform ⟨.x86_64, .smallest⟩ ⟨0x10⟩
      1).traceOn .yielding Machine.selfMapped) = [⟨0x1008⟩] := rfl
  have hspace : ∀ s, Machine.selfMapped.locks.processes.find? 1 = some s →
      s < Machine.selfMapped.locks.spaces.length := by
    intro s hs
    cases hs
    decide
  obtain ⟨_, hsame, hends⟩ := perform_unnoticed World.reachable_selfMapped
    Bystander.honest_yielding (.setLastBit 3) hedit hspace (fun _ _ => nofun)
    Bystander.honest_yielding Bystander.honest_yielding hresolve (by rw [hread, hstored]; decide)
  obtain ⟨later, hlater⟩ := Option.isSome_iff_exists.mp (hends rfl)
  exact ⟨_, _, World.reachable_selfMapped, hedit, hresolve, later, hlater, hsame later hlater⟩

end EntryEdit

end Paging
