import Paging.Proofs.FixedMemory

/-!
# Blocks of emulated memory

Emulated memory hands out blocks from a cursor on that only moves up. Rounding the cursor up clears
the bits below the alignment after adding them, which leads to no address below the cursor even if
the alignment is no power of two (`Word.le_and_not_add`), and to its first multiple if it is one
(`Memory.block?_of_power`). So whatever is called on the memory, no two blocks meet, and a block of
which no byte was written is zero (`Memory.hands_out_blocks`).
-/

namespace Paging

/-! ### Rounding up -/

/-- The first multiple of the alignment that is not below the cursor. -/
structure FirstMultiple (cursor align n : Nat) : Prop where
  le : cursor ≤ n
  dvd : align ∣ n
  least : ∀ k, cursor ≤ k → align ∣ k → n ≤ k

theorem sub_mod_of_dvd {align n k : Nat} (hd : align ∣ k) (hle : k ≤ n) : k ≤ n - n % align := by
  obtain ⟨q, rfl⟩ := hd
  have hdiv := Nat.div_add_mod n align
  by_cases hpos : 0 < align
  · have hq : q ≤ n / align := (Nat.le_div_iff_mul_le hpos).mpr (by rwa [Nat.mul_comm])
    have hmul : align * q ≤ align * (n / align) := Nat.mul_le_mul_left align hq
    omega
  · have hzero : align = 0 := by omega
    rw [hzero, Nat.zero_mul]
    exact Nat.zero_le _

theorem firstMultiple_sub_mod (cursor : Nat) {align : Nat} (h : 0 < align) :
    FirstMultiple cursor align (cursor + (align - 1) - (cursor + (align - 1)) % align) where
  le := by
    have hmod := Nat.mod_lt (cursor + (align - 1)) h
    omega
  dvd := Nat.dvd_sub_mod (cursor + (align - 1))
  least k hle hd := by
    obtain ⟨q, rfl⟩ := hd
    have hdiv := Nat.div_add_mod (cursor + (align - 1)) align
    have hq : (cursor + (align - 1)) / align ≤ q := by
      rw [Nat.div_le_iff_le_mul_add_pred h]
      omega
    have hmul := Nat.mul_le_mul_left align hq
    omega

namespace Word

variable {x mask align : Word} {k : Nat}

theorem toNat_and_add_and_not (x mask : Word) :
    (x &&& mask).toNat + (x &&& ~~~mask).toNat = x.toNat := by
  have hdisjoint : (x &&& mask).toBitVec &&& (x &&& ~~~mask).toBitVec = 0#64 := by
    apply BitVec.eq_of_getLsbD_eq
    intro i hi
    simp [hi]
    grind
  have hunion : (x &&& mask) ||| (x &&& ~~~mask) = x := by
    apply ext_bit
    intro i hi
    rw [bit_or, bit_and, bit_and, bit_not, decide_eq_true hi]
    cases bit x i <;> cases bit mask i <;> rfl
  calc (x &&& mask).toNat + (x &&& ~~~mask).toNat
    _ = ((x &&& mask).toBitVec + (x &&& ~~~mask).toBitVec).toNat :=
      (BitVec.toNat_add_of_and_eq_zero hdisjoint).symm
    _ = ((x &&& mask).toBitVec ||| (x &&& ~~~mask).toBitVec).toNat := by
      rw [BitVec.add_eq_or_of_and_eq_zero _ _ hdisjoint]
    _ = x.toNat := congrArg UInt64.toNat hunion

/-- The bits that are cleared make up no more than the mask that was added. -/
theorem le_and_not_add {top : Word} (h : top.toNat = x.toNat + mask.toNat) :
    x.toNat ≤ (top &&& ~~~mask).toNat := by
  have hsplit := toNat_and_add_and_not top mask
  have hmask : (top &&& mask).toNat ≤ mask.toNat := by
    rw [UInt64.toNat_and]
    exact Nat.and_le_right
  omega

theorem toNat_sub_one (h : align.toNat = 2 ^ k) : (align - 1).toNat = 2 ^ k - 1 := by
  have hle : (1 : Word) ≤ align := by
    rw [UInt64.le_iff_toNat_le, h]
    exact Nat.one_le_two_pow
  rw [UInt64.toNat_sub_of_le _ _ hle, h]
  rfl

theorem toNat_and_not_sub_one (h : align.toNat = 2 ^ k) (x : Word) :
    (x &&& ~~~(align - 1)).toNat = x.toNat - x.toNat % align.toNat := by
  have hsplit := toNat_and_add_and_not x (align - 1)
  have hlow : (x &&& (align - 1)).toNat = x.toNat % align.toNat := by
    rw [UInt64.toNat_and, toNat_sub_one h, Nat.and_two_pow_sub_one_eq_mod, h]
  omega

end Word

namespace Memory

variable {cursor size align start stop : Word} {memorySize k : Nat}

/-! ### One block -/

theorem block?_eq_some_iff : block? cursor memorySize size align = some (start, stop) ↔
    ∃ top : Word, top.toNat = cursor.toNat + (align - 1).toNat ∧ start = top &&& ~~~(align - 1) ∧
      stop.toNat = start.toNat + size.toNat ∧ stop.toNat ≤ memorySize := by
  simp only [block?, Option.bind_eq_some_iff, Word.add?_eq_some_iff]
  constructor
  · rintro ⟨top, htop, stop', hstop, hroom⟩
    split at hroom
    · cases hroom
    · cases hroom
      exact ⟨top, htop, rfl, hstop, by omega⟩
  · rintro ⟨top, htop, rfl, hstop, hroom⟩
    exact ⟨top, htop, stop, hstop, if_neg (by omega)⟩

/-- Where a block begins and ends, whatever the alignment. -/
theorem bounds_of_block? (h : block? cursor memorySize size align = some (start, stop)) :
    cursor.toNat ≤ start.toNat ∧ stop.toNat = start.toNat + size.toNat ∧
      stop.toNat ≤ memorySize := by
  obtain ⟨top, htop, rfl, hstop, hroom⟩ := block?_eq_some_iff.mp h
  exact ⟨Word.le_and_not_add htop, hstop, hroom⟩

/-- An alignment of three, taken for a mask, aligns nothing. -/
example : block? 0x1001 0x2000 16 3 = some (0x1001, 0x1011) := by decide

/-- At an alignment that is a power of two a request is met from its first multiple on, if there is
room. Sums that leave 64 bits leave the memory as well. -/
theorem block?_of_power (cursor size : Word) (hs : memorySize < 2 ^ 64)
    (ha : align.toNat = 2 ^ k) :
    ∃ n, FirstMultiple cursor.toNat align.toNat n ∧
      block? cursor memorySize size align =
        if n + size.toNat ≤ memorySize then some (.ofNat n, .ofNat (n + size.toNat)) else none := by
  have hpos : 0 < align.toNat := by
    rw [ha]
    exact Nat.two_pow_pos k
  have hmask : (align - 1).toNat = align.toNat - 1 := by rw [Word.toNat_sub_one ha, ha]
  refine ⟨_, firstMultiple_sub_mod cursor.toNat hpos, ?_⟩
  generalize hsum : cursor.toNat + (align.toNat - 1) = sum
  split
  · rename_i hroom
    have hlt : sum < 2 ^ 64 := by
      have hexp : k < 64 := (Nat.pow_lt_pow_iff_right (by decide)).mp (ha ▸ align.toNat_lt)
      have hdvd : align.toNat ∣ 2 ^ 64 := ha ▸ Nat.pow_dvd_pow 2 (Nat.le_of_lt hexp)
      apply Nat.lt_of_not_le
      intro hle
      have hfirst := sub_mod_of_dvd hdvd hle
      omega
    have htop : (UInt64.ofNat sum).toNat = sum := by
      rw [UInt64.toNat_ofNat', Nat.mod_eq_of_lt hlt]
    have hstart : (UInt64.ofNat (sum - sum % align.toNat)).toNat = sum - sum % align.toNat := by
      rw [UInt64.toNat_ofNat', Nat.mod_eq_of_lt (by omega)]
    have hstop : (UInt64.ofNat (sum - sum % align.toNat + size.toNat)).toNat =
        sum - sum % align.toNat + size.toNat := by
      rw [UInt64.toNat_ofNat', Nat.mod_eq_of_lt (by omega)]
    refine block?_eq_some_iff.mpr ⟨.ofNat sum, by omega, ?_, by omega, by omega⟩
    apply UInt64.toNat_inj.mp
    rw [hstart, Word.toNat_and_not_sub_one ha, htop]
  · rename_i hroom
    apply Option.eq_none_iff_forall_ne_some.mpr
    rintro ⟨start, stop⟩ h
    obtain ⟨top, htop, rfl, hstop, hle⟩ := block?_eq_some_iff.mp h
    rw [Word.toNat_and_not_sub_one ha, htop, hmask, hsum] at hstop
    omega

end Memory

/-! ### Calls -/

inductive MemoryCall where
  | allocate (size align : Word)
  | readBytes (a : PhysicalAddress) (count : Nat)
  | readWord (a : PhysicalAddress)
  | writeBytes (a : PhysicalAddress) (bs : List UInt8)
  | writeWord (a : PhysicalAddress) (w : Word)

inductive MemoryAnswer where
  | block (start : Option PhysicalAddress)
  | bytes (read : Except Refusal (List UInt8))
  | word (read : Except Refusal Word)
  | written (refused : Option Refusal)

/-- A call that was made, with its answer. -/
abbrev AnsweredCall := MemoryCall × MemoryAnswer

namespace Memory

/-- The memory after a write, or as it was if that was refused. -/
def stored (m : Memory) : Except Refusal Memory → MemoryAnswer × Memory
  | .ok m' => (.written none, m')
  | .error r => (.written (some r), m)

/-- The answer to a call, and the memory after it. -/
def call (m : Memory) : MemoryCall → MemoryAnswer × Memory
  | .allocate size align => (.block (m.allocate size align).1, (m.allocate size align).2)
  | .readBytes a count => (.bytes (m.readBytes a count), m)
  | .readWord a => (.word (m.readWord a), m)
  | .writeBytes a bs => m.stored (m.writeBytes a bs)
  | .writeWord a w => m.stored (m.writeWord a w)

/-- Calls with their answers, one made after the other. -/
def history (m : Memory) : List MemoryCall → List AnsweredCall
  | [] => []
  | c :: rest => (c, (m.call c).1) :: (m.call c).2.history rest

def after (m : Memory) (calls : List MemoryCall) : Memory :=
  calls.foldl (fun m c => (m.call c).2) m

structure Block where
  start : PhysicalAddress
  size : Word

def Block.stop (b : Block) : Nat := b.start.toNat + b.size.toNat

/-- The block that a call was answered with. -/
def granted? : AnsweredCall → Option Block
  | (.allocate size _, .block (some start)) => some ⟨start, size⟩
  | _ => none

/-- The blocks handed out, in the order of the calls. -/
def blocks (past : List AnsweredCall) : List Block := past.filterMap granted?

/-- The byte at an address was written. -/
def Wrote (n : Nat) : AnsweredCall → Prop
  | (.writeBytes a bs, .written none) => a.toNat ≤ n ∧ n < a.toNat + bs.length
  | (.writeWord a _, .written none) => a.toNat ≤ n ∧ n < a.toNat + 8
  | _ => False

variable {m m' : Memory} {size align cursor start stop : Word} {bytes : Nat}
  {past : List AnsweredCall} {e : AnsweredCall} {a : PhysicalAddress} {bs : List UInt8}

theorem history_append (m : Memory) (calls later : List MemoryCall) :
    m.history (calls ++ later) = m.history calls ++ (m.after calls).history later := by
  induction calls generalizing m with
  | nil => rfl
  | cons c rest ih => exact congrArg _ (ih (m.call c).2)

theorem length_history (m : Memory) (calls : List MemoryCall) :
    (m.history calls).length = calls.length := by
  induction calls generalizing m with
  | nil => rfl
  | cons c rest ih => exact congrArg _ (ih (m.call c).2)

theorem after_append (m : Memory) (calls later : List MemoryCall) :
    m.after (calls ++ later) = (m.after calls).after later := List.foldl_append ..

/-- Emulated memory that nothing was called on yet. -/
def fresh (size : Word) : Memory := emulated size.toNat

/-- What has held of memory of so many bytes since it was fresh, and its cursor. -/
structure Kept (bytes : Nat) (past : List AnsweredCall) (cursor : Word) (m : Memory) : Prop where
  backing : m.backing = .emulated cursor
  size_eq : m.size = bytes
  reserved : 0x1000 ≤ cursor.toNat
  inside : ∀ b ∈ blocks past, 0x1000 ≤ b.start.toNat ∧ b.stop ≤ bytes
  below : ∀ b ∈ blocks past, b.stop ≤ cursor.toNat
  apart : (blocks past).Pairwise fun earlier later => earlier.stop ≤ later.start.toNat
  zero : ∀ n < bytes, (∀ e ∈ past, ¬Wrote n e) → m.byteAt n = some 0

theorem kept_emulated (bytes : Nat) : Kept bytes [] 0x1000 (emulated bytes) where
  backing := rfl
  size_eq := Array.size_replicate
  reserved := by decide
  inside := nofun
  below := nofun
  apart := .nil
  zero n hn _ := by
    rw [byteAt_of_le (Nat.zero_le n)]
    show (Array.replicate bytes (0 : UInt8))[n]? = some 0
    rw [Array.getElem?_replicate, if_pos hn]

theorem blocks_concat_none (hb : granted? e = none) : blocks (past ++ [e]) = blocks past := by
  rw [blocks, List.filterMap_append, List.filterMap_cons_none hb]
  exact List.append_nil _

theorem blocks_concat_some {b : Block} (hb : granted? e = some b) :
    blocks (past ++ [e]) = blocks past ++ [b] := by
  rw [blocks, List.filterMap_append, List.filterMap_cons_some hb]
  rfl

/-- A call for anything but a block leaves the memory as it is or writes bytes of it. -/
theorem call_cases (hf : m.backing.IsFixed) (c : MemoryCall) :
    (∃ count align, c = .allocate count align) ∨
      granted? (c, (m.call c).1) = none ∧ ((m.call c).2 = m ∨
        ∃ a bs, m.Overwritten a bs (m.call c).2 ∧
          ∀ n, a.toNat ≤ n → n < a.toNat + bs.length → Wrote n (c, (m.call c).1)) := by
  cases c with
  | allocate count align => exact .inl ⟨count, align, rfl⟩
  | readBytes a count | readWord a => exact .inr ⟨rfl, .inl rfl⟩
  | writeBytes a bs =>
    refine .inr ⟨rfl, ?_⟩
    simp only [call]
    cases hwrite : m.writeBytes a bs with
    | error r => exact .inl rfl
    | ok m' => exact .inr ⟨a, bs, overwritten_of_writeBytes hf hwrite, fun n hle hlt => ⟨hle, hlt⟩⟩
  | writeWord a w =>
    refine .inr ⟨rfl, ?_⟩
    simp only [call]
    cases hwrite : m.writeWord a w with
    | error r => exact .inl rfl
    | ok m' =>
      have hbytes := ((writeWord_eq_ok_iff hf).mp hwrite).2
      refine .inr ⟨a, Bytes.ofWord w, overwritten_of_writeBytes hf hbytes, fun n hle hlt => ?_⟩
      rw [Bytes.length_ofWord] at hlt
      exact ⟨hle, hlt⟩

section Step

variable (h : Kept bytes past cursor m)
include h

theorem Kept.isFixed : m.backing.IsFixed := by
  rw [h.backing]
  trivial

theorem Kept.unchanged (hb : granted? e = none) : Kept bytes (past ++ [e]) cursor m := by
  constructor
  case backing => exact h.backing
  case size_eq => exact h.size_eq
  case reserved => exact h.reserved
  case zero => exact fun n hn hout => h.zero n hn fun e he => hout e (List.mem_append_left _ he)
  all_goals rw [blocks_concat_none hb]
  case inside => exact h.inside
  case below => exact h.below
  case apart => exact h.apart

theorem Kept.overwritten (hb : granted? e = none) (ho : m.Overwritten a bs m')
    (hw : ∀ n, a.toNat ≤ n → n < a.toNat + bs.length → Wrote n e) :
    Kept bytes (past ++ [e]) cursor m' := by
  have hkept := h.unchanged hb
  constructor
  case backing => rw [ho.backing, h.backing]
  case size_eq => rw [ho.size, h.size_eq]
  case reserved => exact hkept.reserved
  case inside => exact hkept.inside
  case below => exact hkept.below
  case apart => exact hkept.apart
  case zero =>
    intro n hn hout
    have hapart : ¬(a.toNat ≤ n ∧ n < a.toNat + bs.length) := fun hin =>
      hout e (List.mem_append_right _ (List.mem_singleton_self e)) (hw n hin.1 hin.2)
    rw [ho.byteAt, if_neg hapart]
    exact hkept.zero n hn hout

theorem Kept.granted (hb : granted? e = some ⟨⟨start⟩, size⟩)
    (hblock : Memory.block? cursor bytes size align = some (start, stop)) :
    Kept bytes (past ++ [e]) stop { m with backing := .emulated stop } := by
  obtain ⟨hstart, hstop, hroom⟩ := bounds_of_block? hblock
  have hreserved := h.reserved
  have hend : (⟨⟨start⟩, size⟩ : Block).stop = stop.toNat := hstop.symm
  constructor
  case backing => rfl
  case size_eq => exact h.size_eq
  case reserved => omega
  case zero =>
    intro n hn hout
    have hzero := h.zero n hn fun e he => hout e (List.mem_append_left _ he)
    rwa [byteAt, h.backing] at hzero
  all_goals rw [blocks_concat_some hb]
  case inside =>
    intro b hmem
    rcases List.mem_append.mp hmem with hold | hnew
    · exact h.inside b hold
    · rw [List.mem_singleton.mp hnew, hend]
      exact ⟨Nat.le_trans hreserved hstart, hroom⟩
  case below =>
    intro b hmem
    rcases List.mem_append.mp hmem with hold | hnew
    · have hbelow := h.below b hold
      omega
    · obtain rfl := List.mem_singleton.mp hnew
      exact Nat.le_of_eq hend
  case apart =>
    refine List.pairwise_append.mpr ⟨h.apart, List.pairwise_singleton _ _, ?_⟩
    intro b hold b' hnew
    rw [List.mem_singleton.mp hnew]
    exact Nat.le_trans (h.below b hold) hstart

theorem Kept.call_allocate (count align : Word) : m.call (.allocate count align) =
    match Memory.block? cursor bytes count align with
    | some (start, stop) => (.block (some ⟨start⟩), { m with backing := .emulated stop })
    | none => (.block none, m) := by
  simp only [Memory.call, allocate, h.backing, h.size_eq]
  cases Memory.block? cursor bytes count align <;> rfl

/-- What a call does to what has held. -/
theorem Kept.call (c : MemoryCall) :
    ∃ cursor', Kept bytes (past ++ [(c, (m.call c).1)]) cursor' (m.call c).2 := by
  rcases call_cases h.isFixed c with ⟨count, align, rfl⟩ | ⟨hb, hsame | ⟨a, bs, ho, hw⟩⟩
  · rw [h.call_allocate]
    cases hblock : Memory.block? cursor bytes count align with
    | none => exact ⟨cursor, h.unchanged rfl⟩
    | some found => exact ⟨found.2, h.granted rfl hblock⟩
  · rw [hsame]
    exact ⟨cursor, h.unchanged hb⟩
  · exact ⟨cursor, h.overwritten hb ho hw⟩

theorem Kept.history (calls : List MemoryCall) :
    ∃ cursor', Kept bytes (past ++ m.history calls) cursor' (m.after calls) := by
  induction calls generalizing past cursor m with
  | nil =>
    refine ⟨cursor, ?_⟩
    rwa [Memory.history, List.append_nil]
  | cons c rest ih =>
    obtain ⟨next, hnext⟩ := h.call c
    obtain ⟨last, hlast⟩ := ih hnext
    refine ⟨last, ?_⟩
    rwa [List.append_assoc] at hlast

end Step

/-! ### What is handed out -/

/-- The history of fresh memory keeps its blocks, and a cursor that is where the next begins. -/
theorem kept_history (size : Word) (calls : List MemoryCall) :
    ∃ cursor, Kept size.toNat ((fresh size).history calls) cursor
      ((fresh size).after calls) := (kept_emulated size.toNat).history calls

theorem Kept.readBytes_zero (h : Kept bytes past cursor m) {count : Nat}
    (hin : a.toNat + count ≤ bytes)
    (hout : ∀ n, a.toNat ≤ n → n < a.toNat + count → ∀ e ∈ past, ¬Wrote n e) :
    m.readBytes a count = .ok (List.replicate count 0) := by
  have hbase : m.backing.base = 0 := by
    rw [h.backing]
    rfl
  have hholds : m.Holds a count := by
    refine ⟨by omega, ?_⟩
    rw [hbase, h.size_eq]
    exact hin
  have hread := readBytes_of_holds h.isFixed hholds
  rw [hread]
  obtain ⟨hlength, hbytes⟩ := getElem?_of_readBytes h.isFixed hread
  congr 1
  apply List.ext_getElem?
  intro i
  by_cases hi : i < count
  · rw [hbytes i hi, h.zero (a.toNat + i) (by omega) (hout _ (by omega) (by omega)),
      List.getElem?_replicate, if_pos hi]
  · rw [List.getElem?_eq_none (by omega), List.getElem?_eq_none (by simp; omega)]

theorem Kept.call_refused (h : Kept bytes past cursor m)
    (hnone : (m.call (.allocate size align)).1 = .block none) :
    m.call (.allocate size align) = (.block none, m) := by
  rw [h.call_allocate] at hnone ⊢
  cases hblock : Memory.block? cursor bytes size align with
  | none => rfl
  | some found =>
    rw [hblock] at hnone
    cases hnone

theorem Kept.backing_call (h : Kept bytes past cursor m) {c : MemoryCall}
    (hc : ∀ count align, c ≠ .allocate count align) : (m.call c).2.backing = m.backing := by
  rcases call_cases h.isFixed c with ⟨count, align, hallocate⟩ | ⟨-, hsame | ⟨a, bs, ho, -⟩⟩
  · exact absurd hallocate (hc count align)
  · rw [hsame]
  · exact ho.backing

/-- Whether a request is met at an alignment that is a power of two, and where. -/
theorem Kept.call_of_power (h : Kept bytes past cursor m) (hs : bytes < 2 ^ 64) {k : Nat}
    (ha : align.toNat = 2 ^ k) (count : Word) :
    ∃ n, FirstMultiple cursor.toNat align.toNat n ∧ (m.call (.allocate count align)).1 =
      .block (if n + count.toNat ≤ bytes then some ⟨.ofNat n⟩ else none) := by
  obtain ⟨n, hfirst, hblock⟩ := block?_of_power cursor count hs ha
  refine ⟨n, hfirst, ?_⟩
  rw [h.call_allocate, hblock]
  by_cases hroom : n + count.toNat ≤ bytes
  · rw [if_pos hroom, if_pos hroom]
  · rw [if_neg hroom, if_neg hroom]

/-- The blocks of fresh memory of a size. -/
structure HandsOutBlocks (size : Word) : Prop where
  /-- The first page is never handed out. -/
  inside : ∀ calls, ∀ b ∈ blocks ((fresh size).history calls),
    0x1000 ≤ b.start.toNat ∧ b.stop ≤ size.toNat
  apart : ∀ calls, (blocks ((fresh size).history calls)).Pairwise
    fun earlier later => earlier.stop ≤ later.start.toNat
  /-- A block that was not written to is zero. -/
  zero : ∀ calls, ∀ b ∈ blocks ((fresh size).history calls),
    (∀ n, b.start.toNat ≤ n → n < b.stop →
      ∀ e ∈ (fresh size).history calls, ¬Wrote n e) →
    ((fresh size).after calls).readBytes b.start b.size.toNat =
      .ok (List.replicate b.size.toNat 0)
  aligned : ∀ calls count align k start, align.toNat = 2 ^ k →
    (((fresh size).after calls).call (.allocate count align)).1 = .block (some start) →
    align.toNat ∣ start.toNat
  /-- At an alignment that is a power of two, the block at the first multiple from the cursor on is
  handed out, if there is room for it. -/
  granted : ∀ calls count align k, align.toNat = 2 ^ k → ∃ cursor n,
    ((fresh size).after calls).backing = .emulated cursor ∧
    FirstMultiple cursor.toNat align.toNat n ∧
    (((fresh size).after calls).call (.allocate count align)).1 =
      .block (if n + count.toNat ≤ size.toNat then some ⟨.ofNat n⟩ else none)
  /-- A request that was not met changes neither the memory nor any later answer. -/
  refused : ∀ calls count align later,
    (((fresh size).after calls).call (.allocate count align)).1 = .block none →
    (fresh size).after (calls ++ .allocate count align :: later) =
      (fresh size).after (calls ++ later) ∧
    (fresh size).history (calls ++ .allocate count align :: later) =
      (fresh size).history calls ++ (.allocate count align, .block none) ::
        ((fresh size).history (calls ++ later)).drop calls.length
  /-- Only a request for a block moves the cursor. -/
  cursor : ∀ calls c, (∀ count align, c ≠ .allocate count align) →
    (((fresh size).after calls).call c).2.backing =
      ((fresh size).after calls).backing

theorem hands_out_blocks (size : Word) : HandsOutBlocks size where
  inside calls := by
    obtain ⟨cursor, h⟩ := kept_history size calls
    exact h.inside
  apart calls := by
    obtain ⟨cursor, h⟩ := kept_history size calls
    exact h.apart
  zero calls b hb hout := by
    obtain ⟨cursor, h⟩ := kept_history size calls
    exact h.readBytes_zero (h.inside b hb).2 hout
  aligned calls count align k start ha hstart := by
    obtain ⟨cursor, h⟩ := kept_history size calls
    obtain ⟨n, hfirst, hcall⟩ := h.call_of_power size.toNat_lt ha count
    rw [hcall] at hstart
    split at hstart
    · rename_i hroom
      cases hstart
      have hlt := size.toNat_lt
      show align.toNat ∣ (UInt64.ofNat n).toNat
      rw [UInt64.toNat_ofNat', Nat.mod_eq_of_lt (by omega)]
      exact hfirst.dvd
    · cases hstart
  granted calls count align k ha := by
    obtain ⟨cursor, h⟩ := kept_history size calls
    obtain ⟨n, hfirst, hcall⟩ := h.call_of_power size.toNat_lt ha count
    exact ⟨cursor, n, h.backing, hfirst, hcall⟩
  refused calls count align later hnone := by
    obtain ⟨cursor, h⟩ := kept_history size calls
    have hcall := h.call_refused hnone
    have hdrop : ((fresh size).history (calls ++ later)).drop calls.length =
        ((fresh size).after calls).history later := by
      rw [history_append]
      exact List.drop_left' (length_history _ calls)
    constructor
    · rw [after_append, after_append]
      show (((fresh size).after calls).call (.allocate count align)).2.after later = _
      rw [hcall]
    · rw [hdrop, history_append, Memory.history, hcall]
  cursor calls c hc := by
    obtain ⟨cursor, h⟩ := kept_history size calls
    exact h.backing_call hc

end Memory

end Paging
