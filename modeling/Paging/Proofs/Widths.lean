import Paging.Proofs.Positional
import Paging.Proofs.Recording

/-!
# Layouts with given widths

A list of widths, root first, is accepted exactly when it describes a hierarchy over pages of the
given size (`ofWidths_isOk_iff`). Its levels are then as many as there are widths, the first of them
the root and the last of them the last level, and have these widths (`carries_of_ofWidths`).
-/

namespace Paging.Geometry

/-- The widths of the levels of some hierarchy, root first. -/
structure Describes (offsetBits : Nat) (widths : List Nat) : Prop where
  depth : 2 ≤ widths.length ∧ widths.length ≤ 5
  offset : 4 ≤ offsetBits ∧ offsetBits ≤ 21
  range : ∀ w ∈ widths, 1 ≤ w ∧ w ≤ 16
  total : offsetBits + widths.foldr (· + ·) 0 ≤ 64

/-- The present levels have these widths, root first, and no other. -/
structure Carries (g : Geometry) (offsetBits : Nat) (widths : List Nat) : Prop where
  offset : g.offsetBits = offsetBits
  widths : g.levels.map g.width? = widths.map some
  first : g.levels.head? = some .pgd
  last : g.levels.getLast? = some .pte

variable {offsetBits : Nat} {widths : List Nat} {slots : List Level} {g : Geometry}

/-! ### Slots -/

/-- The slots of a hierarchy go from the root to the last level and leave out some in between. -/
structure Spans (slots : List Level) : Prop where
  sublist : slots.Sublist Level.all
  first : slots.head? = some .pgd
  last : slots.getLast? = some .pte

theorem spans_of_slots? {n : Nat} (h : slots? n = some slots) : Spans slots ∧ slots.length = n := by
  unfold slots? at h
  split at h <;> cases h <;> exact ⟨⟨by decide, rfl, rfl⟩, rfl⟩

theorem Spans.two_le_length (h : Spans slots) : 2 ≤ slots.length := by
  match slots, h.first, h.last with
  | [l], hfirst, hlast =>
    cases hfirst
    cases hlast
  | _ :: _ :: rest, _, _ => exact Nat.le_add_left 2 rest.length

theorem exists_slots?_iff {n : Nat} : (∃ slots, slots? n = some slots) ↔ 2 ≤ n ∧ n ≤ 5 := by
  constructor
  · rintro ⟨slots, h⟩
    obtain ⟨hspan, rfl⟩ := spans_of_slots? h
    exact ⟨hspan.two_le_length, hspan.sublist.length_le⟩
  · intro h
    obtain rfl | rfl | rfl | rfl : n = 2 ∨ n = 3 ∨ n = 4 ∨ n = 5 := by omega
    all_goals exact ⟨_, rfl⟩

theorem Spans.nodup (h : Spans slots) : slots.Nodup := h.sublist.nodup (by decide)

/-! ### Assigned widths -/

/-- Gives the levels their widths, one after the other. -/
def assigned (v : PerLevel (Option Nat)) (slots : List Level) (widths : List Nat) :
    PerLevel (Option Nat) :=
  (slots.zip widths).foldl (fun v (l, w) => v.set l (some w)) v

theorem get_assigned_of_not_mem (v : PerLevel (Option Nat)) {l : Level} (h : l ∉ slots) :
    (assigned v slots widths).get l = v.get l := by
  induction slots generalizing widths v with
  | nil => rfl
  | cons k slots ih =>
    cases widths with
    | nil => rfl
    | cons w widths =>
      obtain ⟨hne, hrest⟩ := not_or.mp (mt List.mem_cons.mpr h)
      show (assigned (v.set k (some w)) slots widths).get l = v.get l
      rw [ih _ hrest, PerLevel.get_set, if_neg hne]

theorem map_get_assigned (v : PerLevel (Option Nat)) (hd : slots.Nodup)
    (hlen : slots.length = widths.length) :
    slots.map (assigned v slots widths).get = widths.map some := by
  induction slots generalizing widths v with
  | nil => cases widths with
    | nil => rfl
    | cons w widths => cases hlen
  | cons k slots ih =>
    cases widths with
    | nil => cases hlen
    | cons w widths =>
      obtain ⟨hk, hd⟩ := List.nodup_cons.mp hd
      have hfirst : (assigned (v.set k (some w)) slots widths).get k = some w := by
        rw [get_assigned_of_not_mem _ hk, PerLevel.get_set, if_pos rfl]
      show (assigned (v.set k (some w)) slots widths).get k :: _ = _
      rw [hfirst, List.map_cons]
      congr 1
      exact ih _ hd (by simpa using hlen)

theorem map_width?_assign (hd : slots.Nodup) (hlen : slots.length = widths.length) :
    slots.map (assign offsetBits slots widths).width? = widths.map some :=
  map_get_assigned _ hd hlen

theorem isPresent_assign (hd : slots.Nodup) (hlen : slots.length = widths.length) (l : Level) :
    (assign offsetBits slots widths).isPresent l = decide (l ∈ slots) := by
  by_cases hl : l ∈ slots
  · have hmem : (assign offsetBits slots widths).width? l ∈ widths.map some := by
      rw [← map_width?_assign hd hlen]
      exact List.mem_map_of_mem hl
    obtain ⟨w, _, hw⟩ := List.mem_map.mp hmem
    rw [isPresent, ← hw, decide_eq_true hl]
    rfl
  · have habsent : (assign offsetBits slots widths).width? l = none :=
      (get_assigned_of_not_mem _ hl).trans (PerLevel.get_all none l)
    rw [isPresent, habsent, decide_eq_false hl]
    rfl

theorem levels_assign (h : Spans slots) (hlen : slots.length = widths.length) :
    (assign offsetBits slots widths).levels = slots := by
  rw [← filter_mem_sublist h.sublist (by decide : Level.all.Nodup), levels]
  apply List.filter_congr
  intro l _
  rw [filter_mem_sublist h.sublist (by decide), isPresent_assign h.nodup hlen]

theorem carries_assign (h : Spans slots) (hlen : slots.length = widths.length) :
    (assign offsetBits slots widths).Carries offsetBits widths where
  offset := rfl
  widths := by rw [levels_assign h hlen, map_width?_assign h.nodup hlen]
  first := by rw [levels_assign h hlen, h.first]
  last := by rw [levels_assign h hlen, h.last]

/-! ### Usable layouts -/

theorem Carries.map_width (h : g.Carries offsetBits widths) : g.levels.map g.width = widths := by
  have hget : (g.levels.map g.width?).map (·.getD 0) = (widths.map some).map (·.getD 0) := by
    rw [h.widths]
  rw [List.map_map, List.map_map] at hget
  exact hget.trans (List.map_id widths)

theorem Carries.virtualBits (h : g.Carries offsetBits widths) :
    g.virtualBits = offsetBits + widths.foldr (· + ·) 0 := by
  rw [virtualBits_eq, h.offset, taken, h.map_width]

/-- Every width is one of a present level, and every present level has one. -/
theorem Carries.all_widths (h : g.Carries offsetBits widths) (p : Nat → Bool) :
    g.widths.toList.all (·.all p) = true ↔ ∀ w ∈ widths, p w = true := by
  rw [List.all_eq_true]
  constructor
  · intro hall w hw
    have hmem : some w ∈ g.levels.map g.width? := by
      rw [h.widths]
      exact List.mem_map_of_mem hw
    obtain ⟨l, _, hl⟩ := List.mem_map.mp hmem
    have hp := hall (g.width? l) (List.mem_map_of_mem (Level.mem_all l))
    rw [hl] at hp
    exact hp
  · intro hwidths found hfound
    obtain ⟨l, _, rfl⟩ := List.mem_map.mp hfound
    show (g.width? l).all p = true
    cases hl : g.width? l with
    | none => rfl
    | some w =>
      have hpresent : l ∈ g.levels := mem_levels.mpr (by rw [isPresent, hl]; rfl)
      have hmem : some w ∈ widths.map some := by
        rw [← h.widths, ← hl]
        exact List.mem_map_of_mem hpresent
      obtain ⟨w', hw', heq⟩ := List.mem_map.mp hmem
      cases heq
      exact hwidths w hw'

theorem Carries.isUsable_iff (h : g.Carries offsetBits widths) : g.isUsable = true ↔
    (4 ≤ offsetBits ∧ offsetBits ≤ 21) ∧ (∀ w ∈ widths, 1 ≤ w ∧ w ≤ 16) ∧
      offsetBits + widths.foldr (· + ·) 0 ≤ 64 := by
  have hroot : g.isPresent .pgd = true := mem_levels.mp (List.mem_of_mem_head? h.first)
  have hlast : g.isPresent .pte = true := mem_levels.mp (List.mem_of_mem_getLast? h.last)
  have hall := h.all_widths fun w => decide (1 ≤ w) && decide (w ≤ 16)
  simp only [Bool.and_eq_true, decide_eq_true_eq] at hall
  simp only [isUsable, Bool.and_eq_true, decide_eq_true_eq, hroot, hlast, h.offset, h.virtualBits,
    and_true, and_assoc, hall]

/-! ### Layouts that widths make -/

theorem carries_of_ofWidths (h : ofWidths offsetBits widths = .ok g) :
    g.Carries offsetBits widths := by
  unfold ofWidths at h
  cases hs : slots? widths.length with
  | none =>
    rw [hs] at h
    cases h
  | some slots =>
    simp only [hs] at h
    split at h
    · cases h
      obtain ⟨hspan, hlen⟩ := spans_of_slots? hs
      exact carries_assign hspan hlen
    · cases h

theorem ofWidths_isOk_iff : (∃ g, ofWidths offsetBits widths = .ok g) ↔
    Describes offsetBits widths := by
  constructor
  · rintro ⟨g, h⟩
    obtain ⟨hoffset, hrange, htotal⟩ :=
      (carries_of_ofWidths h).isUsable_iff.mp (isUsable_ofWidths h)
    have hdepth : ∃ slots, slots? widths.length = some slots := by
      cases hs : slots? widths.length with
      | none =>
        rw [ofWidths, hs] at h
        cases h
      | some slots => exact ⟨slots, rfl⟩
    exact ⟨exists_slots?_iff.mp hdepth, hoffset, hrange, htotal⟩
  · intro h
    obtain ⟨slots, hs⟩ := exists_slots?_iff.mpr h.depth
    obtain ⟨hspan, hlen⟩ := spans_of_slots? hs
    have hcarries : (assign offsetBits slots widths).Carries offsetBits widths :=
      carries_assign hspan hlen
    have husable := hcarries.isUsable_iff.mpr ⟨h.offset, h.range, h.total⟩
    refine ⟨assign offsetBits slots widths, ?_⟩
    simp only [ofWidths, hs, husable, if_true]

theorem error_of_ofWidths {err : Error} (h : ofWidths offsetBits widths = .error err) :
    err = .invalidGeometry := by
  unfold ofWidths at h
  split at h
  · cases h
    rfl
  · simp only at h
    split at h <;> cases h
    rfl

end Paging.Geometry
