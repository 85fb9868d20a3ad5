import Paging.Proofs.World

/-!
# The standing of a process

At every moment a process is in one of four situations (`Standing`): it is not held; its first
caller waits for the lock behind a pending hold; that caller has the lock and is about to publish;
or it is held. Each goes with one state of the account that the history gives of the process. A step
of entering or releasing leads from one situation to another along with the account
(`Standing.enterStep`, `Standing.release`) and leaves those of other processes as they are.
-/

namespace Paging

/-! ### Accounts -/

/-- What the deeds of a process come to. -/
inductive Account where
  | idle
  /-- The lock of the space is taken and no reference is out. -/
  | locked (space : SpaceId)
  /-- So many references are out. -/
  | held (space : SpaceId) (references : Nat)
deriving DecidableEq

namespace Account

/-- Enters a deed; there is no account of deeds out of order. A lock is only taken when idle, the
first reference comes after the lock and the last goes before it is given back, and what is given
back is the lock that was taken. -/
def after? (pid : Pid) (a : Account) (d : Deed) : Option Account :=
  if d.pid = pid then
    match a, d with
    | .idle, .locked _ s => some (.locked s)
    | .locked s, .published _ => some (.held s 1)
    | .held s (n + 1), .joined _ => some (.held s (n + 2))
    | .held s (n + 1), .left _ => some (.held s n)
    | .held s 0, .unlocked _ r => if r = s then some .idle else none
    | _, _ => none
  else some a

def enter (pid : Pid) (a : Option Account) (ds : List Deed) : Option Account :=
  ds.foldl (fun a d => a.bind fun a => a.after? pid d) a

theorem enter_append (pid : Pid) (a : Option Account) (ds ds' : List Deed) :
    enter pid a (ds ++ ds') = enter pid (enter pid a ds) ds' := List.foldl_append ..

theorem enter_of_ne {pid : Pid} (a : Option Account) {ds : List Deed}
    (h : ∀ d ∈ ds, d.pid ≠ pid) : enter pid a ds = a := by
  induction ds generalizing a with
  | nil => rfl
  | cons d ds ih =>
    have hd := h d (List.mem_cons_self ..)
    have ha : (a.bind fun a => a.after? pid d) = a := by
      cases a with
      | none => rfl
      | some a => simp [after?, hd]
    show enter pid (a.bind fun a => a.after? pid d) ds = a
    rw [ha]
    exact ih a fun d hd => h d (List.mem_cons_of_mem _ hd)

end Account

/-- A process with the phases of its initiators and its account, as they agree with the table. -/
inductive Standing (t : LockTable) (pid : Pid) : List Phase → Option Account → Prop where
  | absent (hf : t.holds.find? pid = none) (hh : ∀ s, t.holder? s ≠ some (.table pid)) :
      Standing t pid [] (some .idle)
  | waiting {space : SpaceId} {gate : GateId}
      (hf : t.holds.find? pid = some ⟨space, 0, some gate⟩)
      (hh : ∀ s, t.holder? s ≠ some (.table pid)) :
      Standing t pid [.blocked space gate] (some .idle)
  | taken {space : SpaceId} {gate : GateId}
      (hf : t.holds.find? pid = some ⟨space, 0, some gate⟩)
      (hh : ∀ s, t.holder? s = some (.table pid) ↔ s = space) :
      Standing t pid [.publishing space gate] (some (.locked space))
  | held {space : SpaceId} {n : Nat} (hf : t.holds.find? pid = some ⟨space, n + 1, none⟩)
      (hh : ∀ s, t.holder? s = some (.table pid) ↔ s = space) :
      Standing t pid [] (some (.held space (n + 1)))

namespace Standing

variable {t t' : LockTable} {pid q : Pid} {phases : List Phase} {a : Option Account}

/-! ### Frames -/

/-- The standing of a process is about its hold and the locks taken for it. -/
theorem congr (h : Standing t pid phases a) (hf : t'.holds.find? pid = t.holds.find? pid)
    (hh : ∀ s, t'.holder? s = some (.table pid) ↔ t.holder? s = some (.table pid)) :
    Standing t' pid phases a := by
  cases h with
  | absent hf' hh' => exact .absent (hf.trans hf') fun s hs => hh' s ((hh s).mp hs)
  | waiting hf' hh' => exact .waiting (hf.trans hf') fun s hs => hh' s ((hh s).mp hs)
  | taken hf' hh' => exact .taken (hf.trans hf') fun s => (hh s).trans (hh' s)
  | held hf' hh' => exact .held (hf.trans hf') fun s => (hh s).trans (hh' s)

theorem holder?_setHolder_iff {s : SpaceId} {h : Option Holder} (hlt : s < t.spaces.length)
    (hold : t.holder? s ≠ some (.table q)) (hnew : h ≠ some (.table q)) (r : SpaceId) :
    (t.setHolder s h).holder? r = some (.table q) ↔ t.holder? r = some (.table q) := by
  rw [LockTable.holder?_setHolder t h hlt]
  split
  · rename_i hr
    subst hr
    exact ⟨fun hq => absurd hq hnew, fun hq => absurd hq hold⟩
  · exact Iff.rfl

theorem not_table_of_isFree {s : SpaceId} (hs : t.isFree s = true) :
    t.holder? s ≠ some (.table q) := by
  rw [((LockTable.isFree_iff t s).mp hs).2]
  nofun

theorem enterStep_of_ne (h : Standing t q phases a) (hne : pid ≠ q) {phase : Phase} {s : Step}
    (hs : t.enterStep pid phase = some s) : Standing s.table q phases a := by
  have htable : (some (.table pid) : Option Holder) ≠ some (.table q) := by simpa using hne
  cases phase with
  | start =>
    cases hs
    have hst := LockTable.started t pid
    generalize t.start pid = out at hst
    cases hst with
    | waits hf hg | overflows hf hg hc | unknown hf hp => exact h
    | joins hf hg hc =>
      exact h.congr (by rw [PidMap.find?_insert, if_neg hne]) fun s => Iff.rfl
    | takes hf hp hfree =>
      have hlt := ((LockTable.isFree_iff t _).mp hfree).1
      exact h.congr (by rw [PidMap.find?_insert, if_neg hne])
        (holder?_setHolder_iff hlt (not_table_of_isFree hfree) htable)
    | blocks hf hp hfree =>
      exact h.congr (by rw [PidMap.find?_insert, if_neg hne]) fun s => Iff.rfl
  | waiting gate =>
    simp only [LockTable.enterStep] at hs
    split at hs <;> cases hs
    exact h
  | blocked space gate =>
    simp only [LockTable.enterStep] at hs
    split at hs <;> cases hs
    rename_i hfree
    have hlt := ((LockTable.isFree_iff t _).mp hfree).1
    exact h.congr rfl (holder?_setHolder_iff hlt (not_table_of_isFree hfree) htable)
  | publishing space gate =>
    cases hs
    show Standing (t.publish pid) q phases a
    unfold LockTable.publish
    split
    · exact h.congr (by rw [PidMap.find?_insert, if_neg hne]) fun s => Iff.rfl
    · exact h
  | opening space gate =>
    cases hs
    exact h.congr rfl fun s => Iff.rfl

theorem holder?_of_published (h : Standing t pid phases a) {hold : Hold}
    (hf : t.holds.find? pid = some hold) (hg : hold.gate = none) :
    t.holder? hold.space = some (.table pid) := by
  cases h with
  | absent hf' hh | waiting hf' hh | taken hf' hh =>
    rw [hf] at hf'
    cases hf'
    try cases hg
  | held hf' hh =>
    rw [hf] at hf'
    cases hf'
    exact (hh _).mpr rfl

/-- Releasing one process leaves the others alone: the lock that goes with its last reference was
taken for itself. -/
theorem release_of_ne (h : Standing t q phases a) (hne : pid ≠ q) {phases' : List Phase}
    {a' : Option Account} (hpid : Standing t pid phases' a') :
    Standing (t.release pid).2 q phases a := by
  have hr := LockTable.released t pid
  generalize t.release pid = out at hr
  cases hr with
  | notHeld hf | notAcquired hf hc => exact h
  | more hf hg hc =>
    exact h.congr (by rw [PidMap.find?_insert, if_neg hne]) fun s => Iff.rfl
  | @last hold hf hg hc =>
    have hholder := hpid.holder?_of_published hf hg
    have hother : t.holder? hold.space ≠ some (.table q) := by
      rw [hholder]
      simpa using hne
    have hlt := LockTable.lt_of_holder? t hholder
    exact h.congr (by rw [PidMap.find?_erase, if_neg hne])
      (holder?_setHolder_iff hlt hother nofun)

theorem moved (h : Standing t q phases a) (move : OutsideMove)
    (hmove : ∀ pid, move ≠ .release pid) : Standing (t.moved move) q phases a := by
  cases move with
  | lock space =>
    simp only [LockTable.moved, LockTable.outsideLock]
    split
    · rename_i hfree
      have hlt := ((LockTable.isFree_iff t _).mp hfree).1
      have hnew : some Holder.outsider ≠ some (.table q) := by
        intro hq
        cases hq
      exact h.congr rfl (holder?_setHolder_iff hlt (not_table_of_isFree hfree) hnew)
    · exact h
  | unlock space =>
    simp only [LockTable.moved, LockTable.outsideUnlock]
    split
    · rename_i hout
      have hlt := LockTable.lt_of_holder? t hout
      have hother : t.holder? space ≠ some (.table q) := by
        rw [hout]
        intro hq
        cases hq
      exact h.congr rfl (holder?_setHolder_iff hlt hother (Option.some_ne_none _).symm)
    · exact h
  | bindProcess pid space => exact h.congr rfl fun s => Iff.rfl
  | insertProcess pid root =>
    refine h.congr rfl fun s => ?_
    show ((t.spaces ++ [⟨root, none⟩])[s]?).bind (·.holder) = _ ↔ _
    by_cases hs : s < t.spaces.length
    · rw [List.getElem?_append_left hs]
      exact Iff.rfl
    · -- the new space is in nobody's hands
      have hle : t.spaces.length ≤ s := Nat.not_lt.mp hs
      have hnone : t.holder? s = none := by
        unfold LockTable.holder?
        rw [List.getElem?_eq_none hle]
        rfl
      rw [hnone, List.getElem?_append_right hle]
      cases hd : s - t.spaces.length with
      | zero => simp
      | succ n => simp
  | removeProcess pid => exact h.congr rfl fun s => Iff.rfl
  | release pid => exact absurd rfl (hmove pid)

/-! ### The process itself -/

theorem singleton_eq {before after : List Phase} {p r : Phase}
    (h : before ++ [p] ++ after = [r]) : before = [] ∧ after = [] ∧ p = r := by
  cases before with
  | nil =>
    simp only [List.nil_append, List.singleton_append, List.cons.injEq] at h
    exact ⟨rfl, h.2, h.1⟩
  | cons b before => simp at h

/-- A first look at the table. Nobody is an initiator yet where a hold is begun. -/
theorem start (h : Standing t pid phases a) {before after : List Phase}
    (hphases : phases = before ++ after) :
    Standing (t.start pid).table pid (before ++ (t.start pid).pending ++ after)
      (Account.enter pid a (Deed.ofEntry pid .start (t.start pid))) := by
  have hst := LockTable.started t pid
  generalize t.start pid = out at hst
  cases hst with
  | waits hf hg | overflows hf hg hc | unknown hf hp =>
    have hsame : before ++ [] ++ after = phases := by simp [hphases]
    simp only [Step.pending, Phase.pending, Phase.initiates, Bool.false_eq_true, if_false, hsame]
    exact h
  | joins hf hg hc =>
    have hsame : before ++ [] ++ after = phases := by simp [hphases]
    simp only [Step.pending, hsame]
    cases h with
    | absent hf' hh => simp [hf'] at hf
    | waiting hf' hh | taken hf' hh =>
      rw [hf'] at hf
      cases hf
      cases hg
    | @held space n hf' hh =>
      rw [hf'] at hf
      cases hf
      have hacc : Account.enter pid (some (.held space (n + 1))) [.joined pid] =
          some (.held space (n + 2)) := by
        simp [Account.enter, Account.after?, Deed.pid]
      show Standing _ pid [] (Account.enter pid (some (.held space (n + 1))) [.joined pid])
      rw [hacc]
      exact .held (by rw [PidMap.find?_insert, if_pos rfl]) hh
  | @takes space hf hp hfree =>
    have hsame : before ++ [] ++ after = phases := by simp [hphases]
    simp only [Step.pending, hsame]
    cases h with
    | absent hf' hh =>
      have hlt := ((LockTable.isFree_iff t _).mp hfree).1
      have hacc : Account.enter pid (some .idle) [.locked pid space, .published pid] =
          some (.held space 1) := by
        simp [Account.enter, Account.after?, Deed.pid]
      show Standing _ pid [] (Account.enter pid (some .idle) [.locked pid space, .published pid])
      rw [hacc]
      refine .held (by rw [PidMap.find?_insert, if_pos rfl]) fun s => ?_
      show (t.setHolder space (some (.table pid))).holder? s = _ ↔ _
      rw [LockTable.holder?_setHolder t _ hlt]
      split
      · rename_i hs
        exact ⟨fun _ => hs.symm, fun _ => rfl⟩
      · rename_i hs
        exact ⟨fun hp => absurd hp (hh s), fun hp => absurd hp.symm hs⟩
    | waiting hf' hh | taken hf' hh | held hf' hh =>
      rw [hf'] at hf
      cases hf
  | @blocks space hf hp hfree =>
    cases h with
    | absent hf' hh =>
      obtain ⟨rfl, rfl⟩ : before = [] ∧ after = [] := by
        simpa using (List.append_eq_nil_iff.mp hphases.symm)
      exact .waiting (by rw [PidMap.find?_insert, if_pos rfl]) hh
    | waiting hf' hh | taken hf' hh | held hf' hh =>
      rw [hf'] at hf
      cases hf

/-- Any step of entering. The initiators before and after the caller among all callers are
`before` and `after`. -/
theorem enterStep {before after : List Phase} {phase : Phase} {s : Step}
    (h : Standing t pid (before ++ phase.pending ++ after) a)
    (hs : t.enterStep pid phase = some s) :
    Standing s.table pid (before ++ s.pending ++ after)
      (Account.enter pid a (Deed.ofEntry pid phase s)) := by
  cases phase with
  | start =>
    cases hs
    exact h.start (by simp [Phase.pending, Phase.initiates])
  | waiting gate =>
    simp only [LockTable.enterStep] at hs
    split at hs <;> cases hs
    exact h
  | blocked space gate =>
    simp only [LockTable.enterStep] at hs
    split at hs <;> cases hs
    rename_i hfree
    have hown : (Phase.blocked space gate).pending = [.blocked space gate] := rfl
    rw [hown] at h
    generalize hp : before ++ [Phase.blocked space gate] ++ after = phases at h
    cases h with
    | absent hf hh | held hf hh => simp at hp
    | taken hf hh =>
      obtain ⟨_, _, hne⟩ := singleton_eq hp
      cases hne
    | waiting hf hh =>
      obtain ⟨rfl, rfl, heq⟩ := singleton_eq hp
      cases heq
      have hlt := ((LockTable.isFree_iff t _).mp hfree).1
      have hacc : Account.enter pid (some .idle) [.locked pid space] = some (.locked space) := by
        simp [Account.enter, Account.after?, Deed.pid]
      show Standing _ pid [.publishing space gate]
        (Account.enter pid (some .idle) [.locked pid space])
      rw [hacc]
      refine .taken hf fun s => ?_
      rw [LockTable.holder?_setHolder t _ hlt]
      split
      · rename_i hs
        exact ⟨fun _ => hs.symm, fun _ => rfl⟩
      · rename_i hs
        exact ⟨fun hp => absurd hp (hh s), fun hp => absurd hp.symm hs⟩
  | publishing space gate =>
    cases hs
    have hown : (Phase.publishing space gate).pending = [.publishing space gate] := rfl
    rw [hown] at h
    generalize hp : before ++ [Phase.publishing space gate] ++ after = phases at h
    cases h with
    | absent hf hh | held hf hh => simp at hp
    | waiting hf hh =>
      obtain ⟨_, _, hne⟩ := singleton_eq hp
      cases hne
    | taken hf hh =>
      obtain ⟨rfl, rfl, heq⟩ := singleton_eq hp
      cases heq
      have hacc : Account.enter pid (some (.locked space)) [.published pid] =
          some (.held space 1) := by
        simp [Account.enter, Account.after?, Deed.pid]
      show Standing (t.publish pid) pid []
        (Account.enter pid (some (.locked space)) [.published pid])
      rw [hacc]
      have htable : t.publish pid = { t with holds := t.holds.insert pid ⟨space, 1, none⟩ } := by
        simp [LockTable.publish, hf]
      rw [htable]
      exact .held (by rw [PidMap.find?_insert, if_pos rfl]) hh
  | opening space gate =>
    cases hs
    exact h.congr rfl fun s => Iff.rfl

theorem release (h : Standing t pid phases a) :
    Standing (t.release pid).2 pid phases
      (Account.enter pid a (Deed.ofRelease pid (t.release pid).1)) := by
  have hr := LockTable.released t pid
  generalize t.release pid = out at hr
  cases hr with
  | notHeld hf | notAcquired hf hc => exact h
  | last hf hg hc =>
    cases h with
    | absent hf' hh => simp [hf'] at hf
    | waiting hf' hh | taken hf' hh =>
      rw [hf'] at hf
      cases hf
      cases hg
    | @held space n hf' hh =>
      rw [hf'] at hf
      cases hf
      have hn : n = 0 := by simpa using hc
      subst hn
      have hlt := LockTable.lt_of_holder? t ((hh space).mpr rfl)
      have hacc : Account.enter pid (some (.held space 1)) [.left pid, .unlocked pid space] =
          some .idle := by
        simp [Account.enter, Account.after?, Deed.pid]
      show Standing _ pid []
        (Account.enter pid (some (.held space 1)) [.left pid, .unlocked pid space])
      rw [hacc]
      refine .absent (by rw [PidMap.find?_erase, if_pos rfl]) fun s hs => ?_
      have hnow : (t.setHolder space none).holder? s = some (.table pid) := hs
      rw [LockTable.holder?_setHolder t _ hlt] at hnow
      split at hnow
      · cases hnow
      · rename_i hne
        exact hne ((hh s).mp hnow).symm
  | more hf hg hc =>
    cases h with
    | absent hf' hh => simp [hf'] at hf
    | waiting hf' hh | taken hf' hh =>
      rw [hf'] at hf
      cases hf
      cases hg
    | @held space n hf' hh =>
      rw [hf'] at hf
      cases hf
      obtain ⟨n, rfl⟩ : ∃ k, n = k + 1 := ⟨n - 1, by simp at hc; omega⟩
      have hacc : Account.enter pid (some (.held space (n + 2))) [.left pid] =
          some (.held space (n + 1)) := by
        simp [Account.enter, Account.after?, Deed.pid]
      show Standing _ pid [] (Account.enter pid (some (.held space (n + 2))) [.left pid])
      rw [hacc]
      exact .held (by rw [PidMap.find?_insert, if_pos rfl]; rfl) hh

end Standing

end Paging
