import Paging.Engine.Walk

/-!
# What an entry set keeps of a walk

An entry set records one visit after the other. If no level is visited twice, every visit is found
again at its level (`raw_ofVisits`), levels that were not visited read as zero, and the mask holds
the levels of the valid visits and no other bit (`valid_ofVisits`).
-/

namespace Paging

theorem filter_mem_sublist {α : Type} [DecidableEq α] {s l : List α} (h : s.Sublist l)
    (hd : l.Nodup) : l.filter (fun a => decide (a ∈ s)) = s := by
  induction h with
  | slnil => rfl
  | @cons s l a h ih =>
    obtain ⟨ha, hd⟩ := List.nodup_cons.mp hd
    have has : ¬ a ∈ s := fun hm => ha (h.subset hm)
    rw [List.filter_cons_of_neg (by simpa using has)]
    exact ih hd
  | @cons_cons s l a h ih =>
    obtain ⟨ha, hd⟩ := List.nodup_cons.mp hd
    rw [List.filter_cons_of_pos (by simp)]
    have hcongr : l.filter (fun b => decide (b ∈ a :: s)) = l.filter (fun b => decide (b ∈ s)) := by
      apply List.filter_congr
      intro b hb
      have hne : b ≠ a := fun hba => ha (hba ▸ hb)
      simp [hne]
    rw [hcongr, ih hd]

namespace LevelMask

def ofLevels (ls : List Level) : LevelMask := ls.foldl insert none

theorem has_foldl_insert (ls : List Level) (m : LevelMask) (l : Level) :
    (ls.foldl insert m).has l = (m.has l || decide (l ∈ ls)) := by
  induction ls generalizing m with
  | nil => simp
  | cons k ls ih =>
    rw [List.foldl_cons, ih, has_insert, Bool.or_assoc]
    congr 1
    by_cases h : l = k <;> simp [h]

theorem has_ofLevels (ls : List Level) (l : Level) : (ofLevels ls).has l = decide (l ∈ ls) := by
  rw [ofLevels, has_foldl_insert, has_none, Bool.false_or]

theorem levels_ofLevels {ls : List Level} (h : ls.Sublist Level.all) :
    (ofLevels ls).levels = ls := by
  have hf := filter_mem_sublist h (by decide)
  rw [← hf, levels]
  apply List.filter_congr
  intro l _
  rw [has_ofLevels, hf]

theorem isEmpty_ofLevels (ls : List Level) : (ofLevels ls).isEmpty = true ↔ ls = [] := by
  constructor
  · intro h
    apply List.eq_nil_iff_forall_not_mem.mpr
    intro l hl
    have hhas : (ofLevels ls).has l = true := by
      rw [has_ofLevels]
      exact decide_eq_true hl
    have hbits : (ofLevels ls).bits = 0 := by simpa [isEmpty] using h
    rw [has, hbits] at hhas
    simp at hhas
  · rintro rfl
    rfl

theorem eq_last_of_has {l : Level} (h : (single .pte).has l = true) : l = Level.last := by
  rw [has_single] at h
  exact of_decide_eq_true h

end LevelMask

namespace EntrySet

variable {pid : Pid} {vaddr : VirtualAddress}

theorem ext_raw {s t : EntrySet} (pid : s.pid = t.pid) (vaddr : s.vaddr = t.vaddr)
    (raw : ∀ l, s.raw l = t.raw l) (valid : s.valid = t.valid) : s = t := by
  have values : s.values = t.values := PerLevel.ext_get raw
  obtain ⟨_, _, _, _⟩ := s
  obtain ⟨_, _, _, _⟩ := t
  cases pid
  cases vaddr
  cases values
  cases valid
  rfl

theorem pid_vaddr_foldl (visits : List Visit) (s : EntrySet) :
    (visits.foldl (fun set v => set.record v.level v.raw v.valid) s).pid = s.pid ∧
      (visits.foldl (fun set v => set.record v.level v.raw v.valid) s).vaddr = s.vaddr := by
  induction visits generalizing s with
  | nil => exact ⟨rfl, rfl⟩
  | cons v visits ih => exact ih _

theorem pid_ofVisits (visits : List Visit) : (ofVisits pid vaddr visits).pid = pid :=
  (pid_vaddr_foldl visits _).1

theorem vaddr_ofVisits (visits : List Visit) : (ofVisits pid vaddr visits).vaddr = vaddr :=
  (pid_vaddr_foldl visits _).2

theorem raw_foldl_of_not_mem (visits : List Visit) (s : EntrySet) {l : Level}
    (hl : ∀ v ∈ visits, v.level ≠ l) :
    (visits.foldl (fun set v => set.record v.level v.raw v.valid) s).raw l = s.raw l := by
  induction visits generalizing s with
  | nil => rfl
  | cons v visits ih =>
    have hv : l ≠ v.level := fun h => hl v (List.mem_cons_self ..) h.symm
    rw [List.foldl_cons, ih _ fun w hw => hl w (List.mem_cons_of_mem _ hw), raw_record, if_neg hv]

theorem raw_foldl_of_mem {visits : List Visit} (s : EntrySet)
    (hd : (visits.map Visit.level).Nodup) {v : Visit} (hv : v ∈ visits) :
    (visits.foldl (fun set v => set.record v.level v.raw v.valid) s).raw v.level = v.raw := by
  induction visits generalizing s with
  | nil => cases hv
  | cons w visits ih =>
    rw [List.map_cons, List.nodup_cons] at hd
    obtain ⟨hw, hd⟩ := hd
    rw [List.foldl_cons]
    rcases List.mem_cons.mp hv with rfl | hv
    · have hlater : ∀ u ∈ visits, u.level ≠ v.level := fun u hu hl =>
        hw (hl ▸ List.mem_map_of_mem hu)
      rw [raw_foldl_of_not_mem visits _ hlater, raw_record, if_pos rfl]
    · exact ih _ hd hv

theorem raw_ofVisits {visits : List Visit} (hd : (visits.map Visit.level).Nodup) {v : Visit}
    (hv : v ∈ visits) : (ofVisits pid vaddr visits).raw v.level = v.raw :=
  raw_foldl_of_mem _ hd hv

theorem raw_ofVisits_of_not_mem {visits : List Visit} {l : Level}
    (hl : ∀ v ∈ visits, v.level ≠ l) : (ofVisits pid vaddr visits).raw l = 0 := by
  rw [ofVisits, raw_foldl_of_not_mem visits _ hl]
  exact PerLevel.get_all ..

theorem valid_foldl (visits : List Visit) (s : EntrySet) :
    (visits.foldl (fun set v => set.record v.level v.raw v.valid) s).valid =
      ((visits.filter Visit.valid).map Visit.level).foldl LevelMask.insert s.valid := by
  induction visits generalizing s with
  | nil => rfl
  | cons v visits ih =>
    rw [List.foldl_cons, ih]
    cases hv : v.valid with
    | true => simp [hv, record]
    | false => simp [hv, record]

/-- The mask is the set of the valid visits' levels, without a bit that names no level. -/
theorem valid_ofVisits (visits : List Visit) :
    (ofVisits pid vaddr visits).valid =
      .ofLevels ((visits.filter Visit.valid).map Visit.level) :=
  valid_foldl visits _

end EntrySet

end Paging
