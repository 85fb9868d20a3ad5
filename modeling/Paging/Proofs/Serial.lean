import Paging.Proofs.Races
import Paging.Proofs.Translation

/-!
# Edits by two callers

Two callers edit one space at the same time. A reference to the space keeps outsiders away but not
callers of the same table, so that no caller ever waits for the other, and nothing but the order of
their actions makes the end that of one edit after the other: it is if the conflicts all go one way,
and that is so in every play of two edits that do not race (`Duet.serial_edits`). Of two that race,
one can be lost (`Duet.lost_edits`).
-/

namespace Paging

namespace Duet

/-- Two callers about to edit the space of a process. -/
def ofEdits (e : Engine) (pid : Pid) (edits : Party → SpaceEdit) (m : Machine) :
    Duet (Except Error (Option EditReport)) :=
  ⟨fun w => .fresh ((edits w).perform e pid).run, m⟩

/-- Where two callers are is where the one edit and then the other take the machine, each run while
nobody else moves. -/
structure Serial (others : Bystander) (e : Engine) (pid : Pid) (edits : Party → SpaceEdit)
    (m : Machine) (who : Party) (d : Duet (Except Error (Option EditReport))) : Prop where
  runs : ∃ one two, ((edits who).perform e pid).runOn others m = some one ∧
    ((edits who.other).perform e pid).runOn others one.machine = some two ∧
    d.machine.SameData two.machine ∧ (d.callers who).result? = some one.reply ∧
    (d.callers who.other).result? = some two.reply

variable {e : Engine} {pid : Pid} {space : SpaceId} {base : Nat} {edits : Party → SpaceEdit}
  {m : Machine} {turns : List Party} {d : Duet (Except Error (Option EditReport))}

theorem sound_ofEdits (e : Engine) (edits : Party → SpaceEdit)
    (h : m.locks.Ready pid space base) :
    (ofEdits e pid edits m).Sound pid space m.memory base
      (fun r => ∀ a, r = .ok a → True) (fun w => ((edits w).perform e pid).run) (fun _ => 0) m where
  follows w := ⟨rfl, (edits w).guarded_perform e, by decide⟩
  ready := h
  data := .refl m
  shape := .refl m.memory

theorem serial_of_ordered (h : m.locks.Ready pid space base)
    (hb : base + 4 < LockTable.countLimit) (hplay : (ofEdits e pid edits m).play turns = some d)
    (hdone : ∀ w, (d.callers w).result?.isSome = true) {who : Party}
    (hordered : Ordered m.memory who ((ofEdits e pid edits m).log turns)) (others : Bystander) :
    Serial others e pid edits m who d := by
  obtain ⟨q, depth, k, hq, hsorted⟩ := (sound_ofEdits e edits h).sorted hb hplay
  have hend : ∀ w, ∃ a, q w = .done a ∧ (d.callers w).result? = some a := by
    intro w
    have hw := hdone w
    rw [(hq.follows w).fresh] at hw ⊢
    cases hp : q w with
    | done a => exact ⟨a, rfl, rfl⟩
    | act action next | enter q next =>
      rw [hp] at hw
      cases hw
  obtain ⟨a, ha, hresult⟩ := hend who
  obtain ⟨b, hb', hresult'⟩ := hend who.other
  obtain ⟨-, hanswer, hrest⟩ := hsorted who hordered a ha
  rw [hb'] at hrest
  -- The one edit by itself, and the other on what it leaves.
  obtain ⟨one, hone, hreply, -, hdata, hready, hshape⟩ :=
    run_guarded others ((edits who).guarded_perform e) (by decide) h (by omega) (.refl m)
      (.refl m.memory)
  obtain ⟨two, htwo, hreply', -, hdata', -, -⟩ :=
    run_guarded others ((edits who.other).guarded_perform e) (by decide) hready (by omega) hdata
      hshape
  rw [← hrest] at hreply' hdata'
  exact ⟨one, two, hone, htwo, hq.data.trans hdata'.symm, by rw [hresult, hreply, hanswer],
    by rw [hresult', hreply']; rfl⟩

theorem ordered_of_not_races (h : m.locks.Ready pid space base)
    (hb : base + 4 < LockTable.countLimit) (hplay : (ofEdits e pid edits m).play turns = some d)
    (hraces : (edits .first).races (m.locks.root space) (edits .second) = false) :
    ∃ who, Ordered m.memory who ((ofEdits e pid edits m).log turns) := by
  have hsound := sound_ofEdits e edits h
  cases hkeep : (edits .first).keepsRoot (m.locks.root space) &&
      (edits .second).keepsRoot (m.locks.root space) with
  | true =>
    have hkeeps : ∀ w, (edits w).keepsRoot (m.locks.root space) = true := by
      simp only [Bool.and_eq_true] at hkeep
      intro w
      cases w
      · exact hkeep.1
      · exact hkeep.2
    have hstill := hsound.log_unchanged hb
      (fun w => SpaceEdit.keeps_perform (hkeeps w) e pid space) rfl hplay
    refine ⟨.first, List.pairwise_of_forall_mem_list fun x hx y hy _ _ => ?_⟩
    rw [Taken.conflicts, hstill x hx, hstill y hy, Bool.or_self, Bool.and_false]
  | false =>
    have hboth : ∀ w : Party, (edits w.other).races (m.locks.root space) (edits w) = false ∧
        ((edits w.other).keepsRoot (m.locks.root space) &&
          (edits w).keepsRoot (m.locks.root space)) = false := by
      intro w
      cases w
      · rw [SpaceEdit.races_comm, Bool.and_comm]
        exact ⟨hraces, hkeep⟩
      · exact ⟨hraces, hkeep⟩
    obtain ⟨hmem, hcount⟩ := hsound.log_atMost (k := fun _ => 1) hb
      (fun w => (edits w).atMost_perform e pid) hplay
    refine ordered_of_countP (fun w x => (edits w).once x.action) ?_ hcount
    intro w x y hx hy hconflicts
    obtain ⟨hallowed, n, hn⟩ := hmem _ _ hx
    obtain ⟨hallowed', n', hn'⟩ := hmem _ _ hy
    rw [hn, hn'] at hconflicts
    exact SpaceEdit.once_of_conflicts (hboth w).1 (hboth w).2 hallowed hallowed' hconflicts

/-- Nobody waits, and plays whose conflicts go one way end like one edit after the other, as do all
plays of edits that do not race. -/
theorem serial_edits (e : Engine) (edits : Party → SpaceEdit) (h : m.locks.Ready pid space base)
    (hb : base + 4 < LockTable.countLimit)
    (hplay : (ofEdits e pid edits m).play turns = some d) :
    (∀ w, (d.callers w).result? = none → (d.turn w).isSome = true) ∧
      ((∀ w, (d.callers w).result?.isSome = true) →
        (∀ who, Ordered m.memory who ((ofEdits e pid edits m).log turns) →
          ∀ others, Serial others e pid edits m who d) ∧
        ((edits .first).races (m.locks.root space) (edits .second) = false →
          ∃ who, ∀ others, Serial others e pid edits m who d)) := by
  refine ⟨fun w hw => ?_, fun hdone => ⟨fun who hordered => ?_, fun hraces => ?_⟩⟩
  · obtain ⟨q, depth, k, hq, -⟩ := (sound_ofEdits e edits h).sorted hb hplay
    have hu : (q w).finished = false := by
      rw [(hq.follows w).fresh] at hw
      cases hp : q w with
      | done a =>
        rw [hp] at hw
        cases hw
      | act action next | enter q next => rfl
    obtain ⟨d', hturn, -⟩ := hq.turn w hu hb
    rw [hturn]
    rfl
  · exact serial_of_ordered h hb hplay hdone hordered
  · obtain ⟨who, hordered⟩ := ordered_of_not_races h hb hplay hraces
    exact ⟨who, serial_of_ordered h hb hplay hdone hordered⟩

/-! ### Two bits of one entry -/

/-- What two callers on `selfMapped` come to: whether both have ended, the last entry and the
root. -/
def ending (d : Duet (Except Error (Option EditReport))) : Bool × Word × PhysicalAddress :=
  ((d.callers .first).result?.isSome && (d.callers .second).result?.isSome,
    d.machine.memory.wordAt ⟨0x1008⟩, d.machine.locks.root 0)

theorem isSome_of_ending {w : Word} {root : PhysicalAddress} (h : ending d = (true, w, root)) :
    ∀ w, (d.callers w).result?.isSome = true := by
  have hboth := congrArg (·.1) h
  simp only [ending, Bool.and_eq_true] at hboth
  intro w
  cases w
  · exact hboth.1
  · exact hboth.2

def twoBits : Party → SpaceEdit
  | .first => .entries (.setLastBit 1) ⟨0x10⟩
  | .second => .entries (.setLastBit 2) ⟨0x10⟩

/-- The second caller takes all its steps when the first has taken some of its own. -/
def around (before steps after : Nat) : List Party :=
  List.replicate before .first ++ List.replicate steps .second ++ List.replicate after .first

theorem ready_selfMapped : Machine.selfMapped.locks.Ready 1 0 0 where
  named := rfl
  lt := by decide
  free _ := ⟨rfl, rfl⟩
  held := nofun

/-- The first caller has written but still holds the space. -/
theorem serial_twoBits : Machine.selfMapped.locks.Ready 1 0 0 ∧ 0 + 4 < LockTable.countLimit ∧
    ∃ d, (ofEdits ⟨.x86_64, .smallest⟩ 1 twoBits Machine.selfMapped).play (around 8 10 2) =
        some d ∧
      (∀ w, (d.callers w).result?.isSome = true) ∧
      Ordered Machine.selfMapped.memory .first
        ((ofEdits ⟨.x86_64, .smallest⟩ 1 twoBits Machine.selfMapped).log (around 8 10 2)) ∧
      ∀ others, Serial others ⟨.x86_64, .smallest⟩ 1 twoBits Machine.selfMapped .first d := by
  have hplay : ((ofEdits ⟨.x86_64, .smallest⟩ 1 twoBits Machine.selfMapped).play
      (around 8 10 2)).map ending = some (true, 0b110, ⟨0x1000⟩) := by decide +kernel
  have hordered : Ordered Machine.selfMapped.memory .first
      ((ofEdits ⟨.x86_64, .smallest⟩ 1 twoBits Machine.selfMapped).log (around 8 10 2)) := by
    decide +kernel
  obtain ⟨d, hd, hending⟩ := Option.map_eq_some_iff.mp hplay
  have hdone := isSome_of_ending hending
  have hserial := serial_edits ⟨.x86_64, .smallest⟩ twoBits ready_selfMapped (by decide) hd
  exact ⟨ready_selfMapped, by decide, d, hd, hdone, hordered, (hserial.2 hdone).1 .first hordered⟩

/-! ### Lost edits -/

theorem Serial.sameData {others : Bystander} {who : Party}
    (hs : Serial others e pid edits m who d) (h : m.locks.Ready pid space base)
    (hb : base + 4 < LockTable.countLimit) :
    d.machine.SameData (((edits who.other).perform e pid).run.alone space
      (((edits who).perform e pid).run.alone space m).1).1 := by
  obtain ⟨one, two, hone, htwo, hdata, -⟩ := hs
  obtain ⟨one', hone', -, -, hdata', hready, hshape⟩ :=
    run_guarded others ((edits who).guarded_perform e) (by decide) h (by omega) (.refl m)
      (.refl m.memory)
  obtain rfl : one = one' := Option.some.inj (hone.symm.trans hone')
  obtain ⟨two', htwo', -, -, hdata'', -, -⟩ :=
    run_guarded others ((edits who.other).guarded_perform e) (by decide) hready (by omega) hdata'
      hshape
  obtain rfl : two = two' := Option.some.inj (htwo.symm.trans htwo')
  exact hdata.trans hdata''

def barrierAndRoot : Party → SpaceEdit
  | .first => .barrier
  | .second => .setRoot ⟨0x2000⟩

/-- Of two bits of one entry one is lost if both callers read the entry before one writes it, and a
barrier undoes what the root is set to between its reading and its setting the root. -/
theorem lost_edits :
    (∃ d, (ofEdits ⟨.x86_64, .smallest⟩ 1 twoBits Machine.selfMapped).play (around 5 10 5) =
        some d ∧
      (∀ w, (d.callers w).result?.isSome = true) ∧ d.machine.memory.wordAt ⟨0x1008⟩ = 0b10 ∧
      ∀ others who, ¬ Serial others ⟨.x86_64, .smallest⟩ 1 twoBits Machine.selfMapped who d) ∧
    ∃ d, (ofEdits ⟨.x86_64, .smallest⟩ 1 barrierAndRoot Machine.selfMapped).play (around 2 4 2) =
        some d ∧
      (∀ w, (d.callers w).result?.isSome = true) ∧ d.machine.locks.root 0 = ⟨0x1000⟩ ∧
      ∀ others who,
        ¬ Serial others ⟨.x86_64, .smallest⟩ 1 barrierAndRoot Machine.selfMapped who d := by
  have hbits : ((ofEdits ⟨.x86_64, .smallest⟩ 1 twoBits Machine.selfMapped).play
      (around 5 10 5)).map ending = some (true, 0b10, ⟨0x1000⟩) := by decide +kernel
  have hroots : ((ofEdits ⟨.x86_64, .smallest⟩ 1 barrierAndRoot Machine.selfMapped).play
      (around 2 4 2)).map ending = some (true, 0, ⟨0x1000⟩) := by decide +kernel
  have hbitsAlone : ∀ who, (((twoBits who.other).perform ⟨.x86_64, .smallest⟩ 1).run.alone 0
      (((twoBits who).perform ⟨.x86_64, .smallest⟩ 1).run.alone 0
        Machine.selfMapped).1).1.memory.wordAt ⟨0x1008⟩ = 0b110 := by
    intro who
    cases who <;> decide +kernel
  have hrootsAlone : ∀ who, (((barrierAndRoot who.other).perform ⟨.x86_64, .smallest⟩ 1).run.alone 0
      (((barrierAndRoot who).perform ⟨.x86_64, .smallest⟩ 1).run.alone 0
        Machine.selfMapped).1).1.locks.root 0 = ⟨0x2000⟩ := by
    intro who
    cases who <;> decide +kernel
  constructor
  · obtain ⟨d, hd, hending⟩ := Option.map_eq_some_iff.mp hbits
    have hword : d.machine.memory.wordAt ⟨0x1008⟩ = 0b10 := congrArg (·.2.1) hending
    refine ⟨d, hd, isSome_of_ending hending, hword, fun others who hs => ?_⟩
    have hmemory := (hs.sameData ready_selfMapped (by decide)).memory
    rw [hmemory, hbitsAlone who] at hword
    exact absurd hword (by decide)
  · obtain ⟨d, hd, hending⟩ := Option.map_eq_some_iff.mp hroots
    have hroot : d.machine.locks.root 0 = ⟨0x1000⟩ := congrArg (·.2.2) hending
    refine ⟨d, hd, isSome_of_ending hending, hroot, fun others who hs => ?_⟩
    rw [(hs.sameData ready_selfMapped (by decide)).root 0, hrootsAlone who] at hroot
    exact absurd hroot (by decide)

end Duet

end Paging
