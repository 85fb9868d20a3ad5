import Paging.Engine.Dispatch
import Paging.Proofs.Blindness
import Paging.Proofs.Neutrality

/-!
# One engine over three backings

Everything that an engine can be asked to do is blind to the backing, provided that pages are
written inside the memory (`Call.blind`). Whole sequences of calls therefore give the same answers,
make the same calls on locks, roots and the TLB and leave the same bytes, whether they run over
emulated memory, a window from address zero on or a file (`Call.backends_agree`).
-/

namespace Paging

/-- What an engine can be asked to do. -/
inductive Call where
  | space (c : SpaceCall) (pid : Pid)
  | readPage (pfn : Word) (count : Nat)
  | writePage (pfn : Word) (bytes : List UInt8)
  | flush (vaddr : VirtualAddress)
  | strategy
  | switchStrategy (id : UInt8)
  | memoryTypes
  | setMemoryTypes (value : Word)
  | memoryTypeTable
  | getMt (index : UInt8)
  | setMt (index mt : UInt8)
  | findMt (mt : UInt8)
  | findFirstMt (mt : UInt8)
  | acquire (pid : Pid)
  | lock (pid : Pid)
  | release (pid : Pid)
  | dispatch (request : Request)

inductive Answer where
  | space (a : SpaceAnswer)
  | page (bytes : List UInt8)
  | strategy (s : TlbStrategy)
  | memoryTypes (value : Word)
  | table (t : MemoryTypeTable)
  | byte (b : UInt8)
  | slot (index : Option UInt8)
  | entered (space : SpaceId)
  | response (r : Response)
  | done
deriving DecidableEq

namespace Call

def perform (c : Call) (e : Engine) : Op Answer :=
  match c with
  | space c pid => .space <$> c.perform e pid
  | readPage pfn count => .page <$> e.readPage pfn count
  | writePage pfn bytes => (fun _ => .done) <$> e.writePage pfn bytes
  | flush vaddr => (fun _ => .done) <$> Op.flush vaddr
  | strategy => .strategy <$> Op.strategy
  | switchStrategy id => .strategy <$> Op.switchStrategy id
  | memoryTypes => .memoryTypes <$> e.memoryTypes
  | setMemoryTypes value => (fun _ => .done) <$> e.setMemoryTypes value
  | memoryTypeTable => .table <$> e.memoryTypeTable
  | getMt index => .byte <$> e.getMt index
  | setMt index mt => (fun _ => .done) <$> e.setMt index mt
  | findMt mt => .byte <$> e.findMt mt
  | findFirstMt mt => .slot <$> e.findFirstMt mt
  | acquire pid => .entered <$> Op.acquire pid
  | lock pid => (fun _ => .done) <$> Engine.lock pid
  | release pid => (fun _ => .done) <$> Op.release pid
  | dispatch request => .response <$> e.dispatch request

/-- Every page that is written lies within the first `n` bytes. -/
def Inside (n : Nat) (e : Engine) : Call → Prop
  | writePage pfn _ | dispatch (.writePage pfn _) => pfn.toNat * e.pageSize + e.pageSize ≤ n
  | _ => True

end Call

namespace Engine

variable {n : Nat} (e : Engine)

theorem pageSize_pos : 0 < e.pageSize := Nat.two_pow_pos _

theorem blind_readPage (pfn : Word) (count : Nat) :
    Op.Blind n (fun _ => True) (e.readPage pfn count) := by
  refine (Op.Blind.mk_pure _).bind fun address haddress => ?_
  have hcount : count ≠ 0 := by
    have hpos := e.pageSize_pos
    unfold pageAddress at haddress
    split at haddress
    · cases haddress
    · omega
  exact Op.Blind.act (.readBytes address count) id rfl fun _ _ hm =>
    ⟨hm.readBytes address hcount, fun _ _ => trivial⟩

/-- The page does not begin later than its number says, however large pages are. -/
theorem toNat_pageAddress_le {pfn : Word} {count : Nat} {address : PhysicalAddress}
    (h : e.pageAddress pfn count = .ok address) :
    count = e.pageSize ∧ address.toNat ≤ pfn.toNat * e.pageSize := by
  unfold pageAddress at h
  split at h
  · cases h
  · rename_i hcount
    refine ⟨by omega, ?_⟩
    cases hmul : pfn.mul? (UInt64.ofNat e.pageSize) with
    | none =>
      rw [hmul] at h
      cases h
    | some word =>
      rw [hmul] at h
      cases h
      obtain ⟨_, hword⟩ := Option.ite_none_right_eq_some.mp hmul
      cases hword
      show (pfn * UInt64.ofNat e.pageSize).toNat ≤ pfn.toNat * e.pageSize
      rw [UInt64.toNat_mul, UInt64.toNat_ofNat']
      exact Nat.le_trans (Nat.mod_le ..) (Nat.mul_le_mul_left _ (Nat.mod_le ..))

theorem blind_writePage {pfn : Word} (hin : pfn.toNat * e.pageSize + e.pageSize ≤ n)
    (bytes : List UInt8) : Op.Blind n (fun _ => True) (e.writePage pfn bytes) := by
  refine (Op.Blind.mk_pure _).bind fun address haddress => ?_
  have hpos := e.pageSize_pos
  obtain ⟨hlen, hle⟩ := e.toNat_pageAddress_le haddress
  have hne : bytes ≠ [] := List.ne_nil_of_length_pos (by omega)
  exact Op.Blind.act (.writeBytes address bytes) id rfl fun _ _ hm =>
    ⟨hm.writeBytes hne (by omega), fun _ _ => trivial⟩

theorem blind_refuse {α : Type} (r : Refusal) : Op.Blind n (fun _ => True) (Op.refuse r : Op α) := by
  have hnotes : ∀ ns : List Notice, Op.Blind n (fun _ => True) (ns.forM Op.note) := by
    intro ns
    induction ns with
    | nil => exact .pure trivial
    | cons k ns ih => exact (Op.Blind.plain (.note k) .ok rfl rfl).bind fun _ _ => ih
  exact (hnotes r.notices).bind fun _ _ => .throw r.error

theorem blind_memoryTypes : Op.Blind n (fun _ => True) e.memoryTypes := by
  refine (Op.Blind.plain .readRegister .ok rfl rfl).bind fun value _ => ?_
  cases value with
  | some value => exact .pure trivial
  | none => exact blind_refuse _

theorem blind_setMemoryTypes (value : Word) :
    Op.Blind n (fun _ => True) (e.setMemoryTypes value) :=
  e.blind_memoryTypes.bind fun _ _ => Op.Blind.plain (.writeRegister value) .ok rfl rfl

theorem blind_memoryTypeTable : Op.Blind n (fun _ => True) e.memoryTypeTable := by
  have htable : ∀ value, Op.Blind n (fun _ => True)
      (Op.ofExcept (MemoryTypeTable.ofRegister e.arch value)) := by
    intro value
    unfold Op.ofExcept
    split
    · exact .pure trivial
    · exact blind_refuse _
  unfold memoryTypeTable
  split
  · exact htable 0
  · exact e.blind_memoryTypes.bind fun value _ => htable value

theorem blind_answer {request : Request}
    (hin : (Call.dispatch request).Inside n e) :
    Op.Blind n (fun _ => True) (e.answer request) := by
  have hk : 0 < 2 := by decide
  cases request with
  | resolve vaddr pid => exact ((OpLogic.blind n pid).resolve e vaddr hk).answer _
  | update vaddr pid values mask => exact ((OpLogic.blind n pid).edit e vaddr mask _).answer _
  | getRoot pid => exact ((OpLogic.blind n pid).pagingRoot hk).answer _
  | setRoot pid root => exact ((OpLogic.blind n pid).setPagingRoot hk root).answer _
  | readPage pfn => exact (e.blind_readPage pfn _).answer _
  | writePage pfn data => exact (e.blind_writePage hin data).answer _
  | pageSize => exact .pure trivial
  | invalidateTlb vaddr => exact (Op.Blind.plain (.flush vaddr) .ok rfl rfl).answer _
  | switchTlb number => exact (Op.Blind.plain (.switchStrategy number) id rfl rfl).answer _
  | getMemoryTypes => exact e.blind_memoryTypes.answer _
  | setMemoryTypes value => exact (e.blind_setMemoryTypes value).answer _
  | lock pid => exact ((Op.Blind.acquire pid).answer _).answer _
  | unlock pid => exact (Op.Blind.plain (.release pid) .ok rfl rfl).answer _

end Engine

namespace Call

theorem blind {n : Nat} (e : Engine) {c : Call} (hin : c.Inside n e) :
    Op.Blind n (fun _ => True) (c.perform e) := by
  cases c with
  | space c pid => exact (c.holds_perform (OpLogic.blind n pid) e).map _
  | readPage pfn count => exact (e.blind_readPage pfn count).map _
  | writePage pfn bytes => exact (e.blind_writePage hin bytes).map _
  | flush vaddr => exact (Op.Blind.plain (.flush vaddr) .ok rfl rfl).map _
  | strategy => exact (Op.Blind.plain .strategy .ok rfl rfl).map _
  | switchStrategy number => exact (Op.Blind.plain (.switchStrategy number) id rfl rfl).map _
  | memoryTypes => exact e.blind_memoryTypes.map _
  | setMemoryTypes value => exact (e.blind_setMemoryTypes value).map _
  | memoryTypeTable => exact e.blind_memoryTypeTable.map _
  | getMt index => exact (e.blind_memoryTypeTable.answer _).map _
  | setMt index mt =>
    exact (e.blind_memoryTypeTable.bind fun _ _ => e.blind_setMemoryTypes _).map _
  | findMt mt => exact (e.blind_memoryTypeTable.answer _).map _
  | findFirstMt mt => exact (e.blind_memoryTypeTable.answer _).map _
  | acquire pid => exact (Op.Blind.acquire pid).map _
  | lock pid => exact ((Op.Blind.acquire pid).answer _).map _
  | release pid => exact (Op.Blind.plain (.release pid) .ok rfl rfl).map _
  | dispatch request =>
    exact ((Op.Blind.plain (.note _) .ok rfl rfl).bind fun _ _ => e.blind_answer hin).map _

/-- Runs calls one after the other, up to one that would wait for ever. -/
def runEach (others : Bystander) (e : Engine) : List Call → Machine →
    List (Effect (Except Error Answer))
  | [], _ => []
  | c :: rest, m =>
    match (c.perform e).runOn others m with
    | none => []
    | some eff => eff :: runEach others e rest eff.machine

/-- What there is to see of a step and of the machine it leaves, except for the kind of backing and
the notices of refused accesses. -/
structure Observation where
  reply : Except Error Answer
  events : List Event
  bytes : Array UInt8
  locks : LockTable
  tlb : TlbControl
  register : Option Word

def observe (eff : Effect (Except Error Answer)) : Observation :=
  ⟨eff.reply, Event.common eff.events, eff.machine.memory.bytes, eff.machine.locks,
    eff.machine.tlb, eff.machine.register⟩

theorem observe_of_alike {n : Nat} {eff eff' : Effect (Except Error Answer)}
    (h : eff.Alike n eff') : observe eff' = observe eff := by
  simp only [observe, h.reply, h.events, h.machine.bytes, h.machine.locks, h.machine.tlb,
    h.machine.register]

theorem observe_runEach {n : Nat} (others : Bystander) (e : Engine)
    (calls : List Call) (hin : ∀ c ∈ calls, c.Inside n e) {m m' : Machine} (h : m.Alike n m') :
    (runEach others e calls m').map observe = (runEach others e calls m).map observe := by
  induction calls generalizing m m' with
  | nil => rfl
  | cons c rest ih =>
    have hblind := blind e (hin c (List.mem_cons_self ..))
    simp only [runEach]
    obtain ⟨hrun, hrun'⟩ | ⟨eff, eff', hrun, hrun', hsame, _⟩ := hblind others m m' h
    · rw [hrun, hrun']
    · have hrest := ih (fun c hc => hin c (List.mem_cons_of_mem _ hc)) hsame.machine
      simp only [hrun, hrun', List.map_cons, observe_of_alike hsame, hrest]

/-- The three backings over one image. A file is shorter than `2 ^ 63` bytes, as every position in it
is a signed number of 64 bits. -/
theorem backends_agree (image : Array UInt8) (cursor : Word) (locks : LockTable)
    (tlb : TlbControl) (register : Option Word) (others : Bystander) (e : Engine)
    (calls : List Call) (hin : ∀ c ∈ calls, c.Inside image.size e) :
    let seen := fun backing =>
      (runEach others e calls ⟨locks, ⟨backing, image⟩, tlb, register⟩).map observe
    seen (.window 0) = seen (.emulated cursor) ∧
      (image.size < 2 ^ 63 → seen (.file .readWrite) = seen (.emulated cursor)) := by
  have halike : ∀ backing : Backing, backing.Plain image.size →
      Machine.Alike image.size ⟨locks, ⟨.emulated cursor, image⟩, tlb, register⟩
        ⟨locks, ⟨backing, image⟩, tlb, register⟩ :=
    fun backing hp => ⟨rfl, rfl, rfl, rfl, rfl, trivial, hp⟩
  constructor
  · exact observe_runEach others e calls hin (halike (.window 0) rfl)
  · intro hn
    exact observe_runEach others e calls hin (halike (.file .readWrite) ⟨rfl, hn⟩)

theorem backends_agree_twoPages :
    let e : Engine := ⟨.x86_64, .smallest⟩
    let image : Array UInt8 := Array.replicate 32 0
    let calls : List Call := [.writePage 1 (List.replicate 16 7), .space (.resolve ⟨0x10⟩) 1]
    let seen := fun backing => (runEach .yielding e calls
      ⟨Machine.selfMapped.locks, ⟨backing, image⟩, .custom, none⟩).map observe
    (∀ c ∈ calls, c.Inside image.size e) ∧ image.size < 2 ^ 63 ∧
      seen (.window 0) = seen (.emulated 0x1000) ∧
      seen (.file .readWrite) = seen (.emulated 0x1000) := by
  intro e image calls seen
  have hin : ∀ c ∈ calls, c.Inside image.size e := by
    intro c hc
    rcases List.mem_cons.mp hc with rfl | hc
    · show 1 * e.pageSize + e.pageSize ≤ image.size
      decide
    · rw [List.mem_singleton.mp hc]
      trivial
  have hn : image.size < 2 ^ 63 := by decide
  obtain ⟨hwindow, hfile⟩ := backends_agree image 0x1000 Machine.selfMapped.locks .custom none
    .yielding e calls hin
  exact ⟨hin, hn, hwindow, hfile hn⟩

end Call

end Paging
