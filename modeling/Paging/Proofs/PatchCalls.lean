import Mathlib.Data.List.Induction
import Paging.Proofs.FrameNumbers

/-!
# Patches built by calls

A patch is built by any number of calls, each of which starts over, sets or clears one bit or gives
a frame number. However many there are, all that is kept of them is two masks and one number. Laying
the patch over an entry nevertheless does the same as following the calls: from the last that starts
over, every bit call changes the word in its turn, and the last frame number comes at the end
(`PatchCall.encode_build`). A patch is empty if the last call made it so, and only an empty patch
leaves every word alone (`EntryPatch.isEmpty_iff_idle`).
-/

namespace Paging

inductive PatchCall where
  | new
  | replace (raw : Word)
  | setBit (b : UInt32)
  | clearBit (b : UInt32)
  | withPfn (pfn : Word)
deriving DecidableEq, Repr

namespace PatchCall

def apply (p : EntryPatch) : PatchCall → EntryPatch
  | new => .empty
  | replace raw => .replace raw
  | setBit b => p.setBit b
  | clearBit b => p.clearBit b
  | withPfn pfn => p.withPfn pfn

def build (calls : List PatchCall) : EntryPatch := calls.foldl apply .empty

/-! ### Following the calls -/

/-- What takes the place of an entry when a call starts over. -/
def base? (existing : Word) : PatchCall → Option Word
  | new => some existing
  | replace raw => some raw
  | _ => none

def restarts : PatchCall → Bool
  | new | replace _ => true
  | _ => false

/-- A bit call changes one bit, counted modulo 64. -/
def changeBit (w : Word) : PatchCall → Word
  | setBit b => w.withBit (b.toNat % 64) true
  | clearBit b => w.withBit (b.toNat % 64) false
  | _ => w

def pfn? : PatchCall → Option Word
  | withPfn pfn => some pfn
  | _ => none

variable (calls : List PatchCall) (c : PatchCall) (existing : Word)

/-- Where the last call that starts over starts from, and the entry itself if there is none. -/
def start : Word := (calls.reverse.findSome? (base? existing)).getD existing

/-- The calls behind the last one that starts over. -/
def since : List PatchCall := (calls.reverse.takeWhile fun c => !c.restarts).reverse

def lastPfn? : Option Word := ((since calls).filterMap pfn?).getLast?

/-- What becomes of an entry when the calls are carried out on it one after the other. -/
def follow (arch : Architecture) (kind : EntryKind) : Word :=
  let word := (since calls).foldl changeBit (start calls existing)
  match lastPfn? calls with
  | some pfn => arch.withPfnAt kind word pfn
  | none => word

/-! ### One more call -/

theorem build_append : build (calls ++ [c]) = c.apply (build calls) := by
  rw [build, List.foldl_append, List.foldl_cons, List.foldl_nil, build]

theorem start_append :
    start (calls ++ [c]) existing = (c.base? existing).getD (start calls existing) := by
  rw [start, List.reverse_append, List.reverse_singleton, List.singleton_append,
    List.findSome?_cons]
  cases c <;> rfl

theorem since_append : since (calls ++ [c]) = if c.restarts then [] else since calls ++ [c] := by
  rw [since, List.reverse_append, List.reverse_singleton, List.singleton_append,
    List.takeWhile_cons]
  cases c.restarts with
  | true => rfl
  | false => exact List.reverse_cons

theorem lastPfn?_append :
    lastPfn? (calls ++ [c]) = if c.restarts then none else c.pfn?.or (lastPfn? calls) := by
  rw [lastPfn?, since_append]
  cases hc : c.restarts with
  | true => rfl
  | false =>
    rw [if_neg Bool.false_ne_true, List.filterMap_append]
    cases c <;> simp [pfn?, lastPfn?]

/-! ### Built patches -/

variable {c}

theorem overlay_apply (h : c.restarts = false) (p : EntryPatch) (w : Word) :
    (c.apply p).overlay w = changeBit (p.overlay w) c := by
  cases c with
  | new | replace raw => cases h
  | setBit b => exact EntryPatch.overlay_setBit p b w
  | clearBit b => exact EntryPatch.overlay_clearBit p b w
  | withPfn pfn => exact EntryPatch.overlay_withPfn p pfn w

/-- The bits part of the patch does what the bit calls do one after the other. -/
theorem overlay_build :
    (build calls).overlay existing = (since calls).foldl changeBit (start calls existing) := by
  induction calls using List.reverseRecOn with
  | nil => exact EntryPatch.overlay_empty existing
  | append_singleton calls c ih =>
    rw [build_append, since_append, start_append]
    cases hc : c.restarts with
    | false =>
      have hstart : c.base? existing = none := by
        cases c with
        | new | replace raw => cases hc
        | setBit b | clearBit b | withPfn pfn => rfl
      rw [overlay_apply hc, ih, hstart, if_neg Bool.false_ne_true, List.foldl_append]
      rfl
    | true =>
      cases c with
      | new => exact EntryPatch.overlay_empty existing
      | replace raw => exact EntryPatch.overlay_replace raw existing
      | setBit b | clearBit b | withPfn pfn => cases hc

theorem pfn_build : (build calls).pfn = lastPfn? calls := by
  induction calls using List.reverseRecOn with
  | nil => rfl
  | append_singleton calls c ih =>
    rw [build_append, lastPfn?_append]
    cases c with
    | new | replace raw | withPfn pfn => rfl
    | setBit b | clearBit b => exact ih

theorem encode_eq_follow (arch : Architecture) (kind : EntryKind) :
    arch.encode existing (build calls) kind = follow calls existing arch kind := by
  have hpfn := pfn_build calls
  cases hlast : lastPfn? calls with
  | none =>
    rw [arch.encode_of_no_pfn kind (hpfn.trans hlast), overlay_build]
    simp only [follow, hlast]
  | some pfn =>
    rw [arch.encode_of_pfn kind (hpfn.trans hlast), overlay_build]
    simp only [follow, hlast]

end PatchCall

/-! ### Empty patches -/

namespace EntryPatch

variable {p : EntryPatch}

theorem isEmpty_iff : p.isEmpty = true ↔ p = empty := by
  obtain ⟨set, clear, pfn⟩ := p
  simp [isEmpty, empty, and_assoc]

/-- A number that a patch gives shows in one of the words of zeros and of ones. -/
theorem pfn_of_idle {arch : Architecture} {kind : EntryKind}
    (h : ∀ existing, arch.encode existing p kind = existing) : p.pfn = none := by
  cases hp : p.pfn with
  | none => rfl
  | some pfn =>
    have hbit : ∀ existing, Word.bit existing 20 = pfn.bit (20 - arch.tableField.low) := by
      intro existing
      conv_lhs => rw [← h existing]
      rw [arch.encode_of_pfn kind hp, arch.bit_withPfnAt, arch.has_frameField]
      rfl
    have hzeros := hbit 0
    have hones := hbit (~~~0)
    rw [Word.bit_ones (by decide), ← hzeros, Word.bit_zero] at hones
    cases hones

/-- What a patch sets shows in the word of zeros, and what it clears in the word of ones. -/
theorem masks_of_idle (h : ∀ existing, p.overlay existing = existing) :
    p.set = 0 ∧ p.clear = 0 := by
  have hset : p.set = 0 := by
    apply Word.ext_bit
    intro i _
    have hzeros := p.bit_overlay 0 i
    rw [h, Word.bit_zero, Bool.false_and, Bool.or_false] at hzeros
    rw [Word.bit_zero, ← hzeros]
  refine ⟨hset, ?_⟩
  apply Word.ext_bit
  intro i hi
  have hones := p.bit_overlay (~~~0) i
  rw [h, Word.bit_ones hi, hset, Word.bit_zero, Bool.false_or, Bool.true_and] at hones
  rw [Word.bit_zero]
  exact (Bool.not_eq_true' _).mp hones.symm

theorem isEmpty_iff_idle (arch : Architecture) (kind : EntryKind) :
    p.isEmpty = true ↔ ∀ existing, arch.encode existing p kind = existing := by
  rw [isEmpty_iff]
  constructor
  · rintro rfl existing
    exact overlay_empty existing
  · intro h
    have hpfn : p.pfn = none := pfn_of_idle h
    have hoverlay : ∀ existing, p.overlay existing = existing := by
      intro existing
      rw [← arch.encode_of_no_pfn kind hpfn, h]
    obtain ⟨hset, hclear⟩ := masks_of_idle hoverlay
    obtain ⟨set, clear, pfn⟩ := p
    cases hset
    cases hclear
    cases hpfn
    rfl

end EntryPatch

namespace PatchCall

theorem isEmpty_apply (p : EntryPatch) (c : PatchCall) :
    (c.apply p).isEmpty = true ↔ c = new := by
  have hbit : ∀ (w : Word) (b : UInt32), w.withBit (b.toNat % 64) true ≠ 0 := by
    intro w b h
    have hself := Word.bit_withBit w (Nat.mod_lt b.toNat (by decide)) true (b.toNat % 64)
    rw [h, Word.bit_zero, if_pos rfl] at hself
    cases hself
  rw [EntryPatch.isEmpty_iff]
  cases c with
  | new => exact ⟨fun _ => rfl, fun _ => rfl⟩
  | replace raw =>
    refine iff_of_false (fun h => ?_) nofun
    exact absurd (congrArg EntryPatch.clear h) (by decide : ~~~(0 : Word) ≠ 0)
  | setBit b =>
    refine iff_of_false (fun h => ?_) nofun
    exact hbit p.set b (congrArg EntryPatch.set h)
  | clearBit b =>
    refine iff_of_false (fun h => ?_) nofun
    exact hbit p.clear b (congrArg EntryPatch.clear h)
  | withPfn pfn =>
    refine iff_of_false (fun h => ?_) nofun
    cases congrArg EntryPatch.pfn h

theorem isEmpty_build (calls : List PatchCall) :
    (build calls).isEmpty = true ↔ ∀ c, calls.getLast? = some c → c = new := by
  cases calls using List.reverseRecOn with
  | nil => simp [build, EntryPatch.isEmpty_iff]
  | append_singleton calls c =>
    rw [build_append, isEmpty_apply, List.getLast?_concat]
    simp

theorem encode_build (calls : List PatchCall) :
    (∀ (arch : Architecture) existing kind,
        arch.encode existing (build calls) kind = follow calls existing arch kind) ∧
      ((build calls).isEmpty = true ↔ ∀ (arch : Architecture) existing kind,
        arch.encode existing (build calls) kind = existing) ∧
      ((build calls).isEmpty = true ↔ ∀ c, calls.getLast? = some c → c = new) := by
  refine ⟨fun arch existing kind => encode_eq_follow calls existing arch kind, ?_,
    isEmpty_build calls⟩
  constructor
  · intro hempty arch existing kind
    exact (EntryPatch.isEmpty_iff_idle arch kind).mp hempty existing
  · intro hidle
    exact (EntryPatch.isEmpty_iff_idle .x86_64 .page).mpr fun existing =>
      hidle .x86_64 existing .page

end PatchCall

end Paging
