import LegMachine.Proofs.Exec.Accesses
import LegMachine.Proofs.Exec.Sums
import LegMachine.Proofs.Isa.Layout

/-!
# Loading what was stored

A number that is stored is loaded again with the bits that were stored (`Memory.load_store`), and a
number that stands apart from it is loaded as before (`Memory.load_store_apart`). So a load behind a
store delivers the bits of the register that was stored, whatever kinds of registers the two name
(`store_then_load`). A pair is stored as two words, which are loaded one by one or as a pair.
-/

namespace LegMachine

/-! ## Numbers in memory -/

namespace Memory

variable {m stored : Memory} {a b v w : Word}

theorem read_write (m : Memory) (offset : Nat) (data : List UInt8)
    (h : offset + data.length ≤ m.bytes.size) :
    (m.write offset data).read offset data.length = data := by
  rw [read_eq_map]
  apply List.ext_getElem
  · simp
  · intro i hi hi'
    rw [List.getElem_map, List.getElem_range, peek_write m offset data h, if_pos (by omega),
      Nat.add_sub_cancel_left, List.getD_eq_getElem _ _ hi']

theorem read_write_apart {offset start length : Nat} {data : List UInt8}
    (h : offset + data.length ≤ m.bytes.size)
    (hapart : start + length ≤ offset ∨ offset + data.length ≤ start) :
    (m.write offset data).read start length = m.read start length := by
  rw [read_eq_map, read_eq_map]
  refine List.map_congr_left fun i hi => ?_
  have hi : i < length := List.mem_range.1 hi
  rw [peek_write m offset data h]
  split
  · rw [List.getD_eq_default _ _ (by omega)]
  · rfl

theorem store_eq_ok {width : Nat} :
    m.store width a v = .ok stored ↔ a.toNat % width = 0 ∧ m.Maps width a ∧
      m.write (a - m.base).toNat (LittleEndian.split width v.toNat) = stored := by
  unfold store
  cases hlocate : m.locate .store width width a with
  | ok offset =>
    obtain ⟨halign, hmaps, rfl⟩ := locate_eq_ok.1 hlocate
    simp [Except.map, halign, hmaps]
  | error e =>
    refine iff_of_false nofun ?_
    rintro ⟨halign, hmaps, -⟩
    rw [locate_of_maps halign hmaps] at hlocate
    cases hlocate

/-- A number is loaded with as many of its bits as were stored. -/
theorem load_store (width : Width) (h : m.store width.bytes a v = .ok stored) :
    stored.load width.bytes a = .ok (zeroExtendLow (8 * width.bytes) v) := by
  obtain ⟨halign, hmaps, rfl⟩ := store_eq_ok.1 h
  have hread := m.read_write (a - m.base).toNat (LittleEndian.split width.bytes v.toNat)
    (by simpa using hmaps.2)
  rw [LittleEndian.length_split] at hread
  refine load_eq_ok.2 ⟨halign, by simpa [Maps] using hmaps, ?_⟩
  rw [base_write, hread, LittleEndian.combine_split]
  apply BitVec.eq_of_toNat_eq
  have hpow : 256 ^ width.bytes = 2 ^ (8 * width.bytes) := Nat.pow_mul 2 8 width.bytes ▸ rfl
  rw [toNat_zeroExtendLow, BitVec.toNat_ofNat, hpow]
  exact Nat.mod_eq_of_lt (Nat.lt_of_le_of_lt (Nat.mod_le _ _) v.isLt)

theorem load_store_apart {width other : Nat} (h : m.store width a v = .ok stored)
    (hapart : b.toNat + other ≤ a.toNat ∨ a.toNat + width ≤ b.toNat)
    (hb : m.load other b = .ok w) : stored.load other b = .ok w := by
  obtain ⟨-, hmaps, rfl⟩ := store_eq_ok.1 h
  obtain ⟨halign, hmaps', rfl⟩ := load_eq_ok.1 hb
  refine load_eq_ok.2 ⟨halign, by simpa [Maps] using hmaps', ?_⟩
  have hle : m.base.toNat ≤ a.toNat := hmaps.1
  have hle' : m.base.toNat ≤ b.toNat := hmaps'.1
  rw [base_write, read_write_apart (by simpa using hmaps.2)]
  rw [LittleEndian.length_split, BitVec.toNat_sub_of_le hmaps.1, BitVec.toNat_sub_of_le hmaps'.1]
  omega

end Memory

theorem zeroExtendLow_word (v : Word) : zeroExtendLow (8 * Width.word.bytes) v = v :=
  zeroExtendLow_eq_self v.isLt

/-! ## Loads and stores -/

/-- The operands of a load or store name a register and an address, by a base register and an
offset. -/
def Processor.Names (p : Processor) (ops : List Word) (r : Register) (address : Word) : Prop :=
  ∃ n v, Operand.register ops 0 = .ok r ∧ Operand.register ops 1 = .ok n ∧
    Operand.word ops 2 = .ok v ∧ p.x n + signExtendLow 16 v = address

/-- The actions that store one number, with its width, its address and the word of which it is the
low part. -/
inductive Processor.Stores (p : Processor) (ops : List Word) :
    Action → Width → Word → Word → Prop where
  | word {r : Register} {address : Word} : p.Names ops r address →
      Stores p ops .stur .word address (p.x r)
  | half {r : Register} {address : Word} : p.Names ops r address →
      Stores p ops .sturh .half address (p.x r)
  | byte {r : Register} {address : Word} : p.Names ops r address →
      Stores p ops .sturb .byte address (p.x r)
  | single {r : Register} {address : Word} : p.Names ops r address →
      Stores p ops .sturs .word address (p.s r)
  | exclusive {r status n : Register} : Operand.register ops 0 = .ok r →
      Operand.register ops 1 = .ok status → Operand.register ops 2 = .ok n →
      Stores p ops .stxr .word (p.x n) (p.x r)

/-- The actions that load one number, with its width, its address and how the processor takes it. -/
inductive Processor.Loads (p : Processor) (ops : List Word) :
    Action → Width → Word → (Word → Processor → Processor) → Prop where
  | word {r : Register} {address : Word} : p.Names ops r address →
      Loads p ops .ldur .word address (setX r)
  | exclusive {r : Register} {address : Word} : p.Names ops r address →
      Loads p ops .ldxr .word address (setX r)
  | half {r : Register} {address : Word} : p.Names ops r address →
      Loads p ops .ldurh .half address (setX r)
  | byte {r : Register} {address : Word} : p.Names ops r address →
      Loads p ops .ldurb .byte address (setX r)
  | single {r : Register} {address : Word} : p.Names ops r address →
      Loads p ops .ldurs .word address (setS r)

/-- In whatever state the processor is, a load of a number at the address takes the word. -/
def Memory.Delivers (memory : Memory) (services : Registry) (width : Width) (address v : Word) :
    Prop :=
  ∀ {m : Machine} {ops : List Word} {action : Action} {take : Word → Processor → Processor},
    m.memory = memory → m.cpu.Loads ops action width address take →
    execute services action ops m = .done (m.mapCpu (take v))

/-- A load of an even register and the next one at the address takes the two words. -/
def Memory.DeliversPair (memory : Memory) (services : Registry) (address low high : Word) : Prop :=
  ∀ {m : Machine} {ops : List Word} {r : Register},
    m.memory = memory → m.cpu.Names ops r address → r.val % 2 = 0 →
    execute services .ldurd ops m =
      .done (m.mapCpu fun p => (p.setS r low).setS (nextRegister r) high)

section

variable {services : Registry} {m stored : Machine} {action : Action} {ops : List Word}
  {width : Width} {address v : Word} {r : Register}

theorem Processor.Names.make (h : m.cpu.Names ops r address) :
    ∃ n v, m.cpu.x n + signExtendLow 16 v = address ∧
      ∀ make : Register → Register → Word → Instruction,
        Operand.twoImmediate ops make = .ok (make r n v) := by
  obtain ⟨n, v, hr, hn, hv, haddress⟩ := h
  exact ⟨n, v, haddress, fun make => Operand.twoImmediate_eq_ok.2 ⟨r, hr, n, hn, v, hv, rfl⟩⟩

theorem store_of_execute (h : m.cpu.Stores ops action width address v)
    (hdone : execute services action ops m = .done stored) :
    m.memory.store width.bytes address v = .ok stored.memory := by
  cases h with
  | word hnames | half hnames | byte hnames | single hnames =>
    obtain ⟨n, _, rfl, hmake⟩ := hnames.make
    simp only [execute, Instruction.ofOperands, hmake] at hdone
    obtain ⟨memory, hmemory, rfl⟩ := Machine.store_eq_done.1 hdone
    exact hmemory
  | @exclusive r status n hr hstatus hn =>
    have hi : Instruction.ofOperands .stxr ops = .ok (.storeExclusive r status n) :=
      Operand.three_eq_ok.2 ⟨r, hr, status, hstatus, n, hn, rfl⟩
    rw [execute_of_operands hi] at hdone
    obtain ⟨between, hstore, hclear⟩ := Machine.andThen_eq_done.1 hdone
    obtain ⟨memory, hmemory, rfl⟩ := Machine.store_eq_done.1 hstore
    cases hclear
    exact hmemory

theorem Memory.delivers_of_load {memory : Memory} (services : Registry) (width : Width)
    (hv : memory.load width.bytes address = .ok v) :
    memory.Delivers services width address v := by
  rintro m ops action take rfl hloads
  cases hloads with
  | word hnames | exclusive hnames | half hnames | byte hnames | single hnames =>
    obtain ⟨n, _, rfl, hmake⟩ := hnames.make
    simp only [execute, Instruction.ofOperands, hmake]
    exact Machine.load_eq_done.2 ⟨v, hv, rfl⟩

/-- An exclusive store that is done has cleared its status register. -/
theorem x_status_of_execute {status : Register} (hstatus : Operand.register ops 1 = .ok status)
    (hdone : execute services .stxr ops m = .done stored) : stored.cpu.x status = 0 := by
  unfold execute at hdone
  cases hi : Instruction.ofOperands .stxr ops with
  | error f =>
    rw [hi] at hdone
    cases hdone
  | ok i =>
    obtain ⟨r, -, status', hstatus', n, -, rfl⟩ := Operand.three_eq_ok.1 hi
    obtain rfl := Except.ok.inj (hstatus.symm.trans hstatus')
    rw [hi] at hdone
    obtain ⟨between, -, hclear⟩ := Machine.andThen_eq_done.1 hdone
    cases hclear
    show (between.cpu.setX status 0).x status = 0
    rw [Processor.x_setX]
    by_cases hzero : status = zeroRegister
    · rw [if_neg fun h => h.2 hzero, hzero, Processor.x_zeroRegister]
    · rw [if_pos ⟨rfl, hzero⟩]

/-! ## Pairs -/

/-- A pair that is stored stands in the memory as two words. -/
theorem words_of_storePair {pair : RegisterPair} (h : m.storePair pair address = .done stored) :
    address.toNat % 8 = 0 ∧ stored.memory.load 4 address = .ok (m.cpu.s pair.lower) ∧
      stored.memory.load 4 (address + 4) = .ok (m.cpu.s pair.upper) := by
  have haligned : address.toNat % 8 = 0 := by
    by_contra hmisaligned
    unfold Machine.storePair at h
    rw [Machine.checkPair_of_misaligned hmisaligned] at h
    cases h
  cases Machine.accesses_storePair h with
  | store haction => simp at haction
  | load haction => simp at haction
  | @storeDouble first second hfirst hsecond =>
    have hlow := Memory.load_store .word hfirst
    have hhigh := Memory.load_store .word hsecond
    rw [zeroExtendLow_word] at hlow hhigh
    have hbehind : address.toNat + 4 ≤ (address + 4).toNat := by
      rw [Memory.toNat_second haligned]
    rw [pair.upper_eq]
    exact ⟨haligned, Memory.load_store_apart hsecond (.inl hbehind) hlow, hhigh⟩

theorem loadPair_of_words {pair : RegisterPair} {low high : Word}
    (haligned : address.toNat % 8 = 0) (hlow : m.memory.load 4 address = .ok low)
    (hhigh : m.memory.load 4 (address + 4) = .ok high) :
    m.loadPair pair address =
      .done (m.mapCpu fun p => (p.setS pair.lower low).setS pair.upper high) := by
  unfold Machine.loadPair
  rw [Machine.checkPair_of_aligned haligned]
  have hfirst : m.load .word address (Processor.setS pair.lower) =
      .done (m.mapCpu (Processor.setS pair.lower low)) :=
    Machine.load_eq_done.2 ⟨low, hlow, rfl⟩
  show (m.load .word address (Processor.setS pair.lower)).andThen _ = _
  rw [hfirst]
  exact Machine.load_eq_done.2 ⟨high, hhigh, rfl⟩

/-- A store of a pair that is done has stored two words. -/
theorem words_of_execute (h : m.cpu.Names ops r address)
    (hdone : execute services .sturd ops m = .done stored) :
    address.toNat % 8 = 0 ∧ stored.memory.load 4 address = .ok (m.cpu.s r) ∧
      stored.memory.load 4 (address + 4) = .ok (m.cpu.s (nextRegister r)) := by
  obtain ⟨n, _, rfl, hmake⟩ := h.make
  simp only [execute, Instruction.ofOperands, hmake] at hdone
  obtain ⟨pair, rfl, hpair⟩ := Machine.withPair_eq_done hdone
  rw [← pair.upper_eq]
  exact words_of_storePair hpair

theorem Memory.deliversPair_of_load {memory : Memory} {low high : Word} (services : Registry)
    (haligned : address.toNat % 8 = 0) (hlow : memory.load 4 address = .ok low)
    (hhigh : memory.load 4 (address + 4) = .ok high) :
    memory.DeliversPair services address low high := by
  rintro m ops r rfl hnames heven
  obtain ⟨n, v, rfl, hmake⟩ := hnames.make
  simp only [execute, Instruction.ofOperands, hmake]
  obtain ⟨pair, rfl, hpair⟩ := Machine.withPair_of_even (m := m) heven
    (m.loadPair · (m.cpu.effective n (signExtendLow 16 v)))
  rw [← pair.upper_eq]
  exact hpair.trans (loadPair_of_words haligned hlow hhigh)

/-- What a store has stored is delivered by every load of that width at its address: the low bits of
the word, and zeros above them. An exclusive store also clears its status register. The words of a
pair are delivered one by one, and together to any pair. -/
theorem store_then_load (services : Registry) (m stored : Machine) (ops : List Word) :
    (∀ {action : Action} {width : Width} {address v : Word},
      m.cpu.Stores ops action width address v →
      execute services action ops m = .done stored →
      stored.memory.Delivers services width address (zeroExtendLow (8 * width.bytes) v)) ∧
    (∀ {status : Register}, Operand.register ops 1 = .ok status →
      execute services .stxr ops m = .done stored → stored.cpu.x status = 0) ∧
    ∀ {r : Register} {address : Word}, m.cpu.Names ops r address →
      execute services .sturd ops m = .done stored →
      stored.memory.Delivers services .word address (m.cpu.s r) ∧
        stored.memory.Delivers services .word (address + 4) (m.cpu.s (nextRegister r)) ∧
        stored.memory.DeliversPair services address (m.cpu.s r) (m.cpu.s (nextRegister r)) := by
  refine ⟨fun hstores hdone => ?_, x_status_of_execute, fun hnames hdone => ?_⟩
  · exact Memory.delivers_of_load services _ (Memory.load_store _ (store_of_execute hstores hdone))
  · obtain ⟨haligned, hlow, hhigh⟩ := words_of_execute hnames hdone
    exact ⟨Memory.delivers_of_load services .word hlow,
      Memory.delivers_of_load services .word hhigh,
      Memory.deliversPair_of_load services haligned hlow hhigh⟩

end

/-- An exclusive store clears the register that it has stored. A pair without a value is loaded into
another one as it stands, and its second word into an integer register. -/
theorem store_then_load_aliased :
    let m : Machine := ⟨((((Processor.initial ⟨false⟩).setX 1 0x1008).setX 2 0x80000001).setS 2
      0xDEADBEEF).setS 3 0x7FF80001, ⟨⟨#[0, 0, 0, 0, 0, 0, 0, 0, 0, 0, 0, 0]⟩, 0x1000⟩, ""⟩
    ∃ single pair, execute .empty .stxr [2, 2, 1] m = .done single ∧ single.cpu.x 2 = 0 ∧
      execute .empty .ldurs [5, 1, 0] single =
        .done (single.mapCpu (Processor.setS 5 0x80000001)) ∧
      execute .empty .sturd [2, 1, 0xFFF8] m = .done pair ∧
      execute .empty .ldurd [4, 1, 0xFFF8] pair =
        .done (pair.mapCpu fun p => (p.setS 4 0xDEADBEEF).setS 5 0x7FF80001) ∧
      execute .empty .ldur [6, 1, 0xFFFC] pair =
        .done (pair.mapCpu (Processor.setX 6 0x7FF80001)) := by
  intro m
  have hsingle : execute .empty .stxr [2, 2, 1] m =
      .done (execute .empty .stxr [2, 2, 1] m).machine := by decide +kernel
  have hpair : execute .empty .sturd [2, 1, 0xFFF8] m =
      .done (execute .empty .sturd [2, 1, 0xFFF8] m).machine := by decide +kernel
  obtain ⟨hdelivers, hstatus, -⟩ := store_then_load .empty m _ [2, 2, 1]
  obtain ⟨-, -, hpairs⟩ := store_then_load .empty m _ [2, 1, 0xFFF8]
  have hx : (execute .empty .stxr [2, 2, 1] m).machine.cpu.x 1 = 0x1008 := by decide +kernel
  have hx' : (execute .empty .sturd [2, 1, 0xFFF8] m).machine.cpu.x 1 = 0x1008 := by
    decide +kernel
  obtain ⟨-, hhigh, htogether⟩ := hpairs ⟨1, 0xFFF8, rfl, rfl, rfl, rfl⟩ hpair
  refine ⟨_, _, hsingle, hstatus rfl hsingle, ?_, hpair, ?_, ?_⟩
  · refine hdelivers (.exclusive rfl rfl rfl) hsingle rfl (.single ⟨1, 0, rfl, rfl, rfl, ?_⟩)
    rw [hx]
    decide
  · refine htogether rfl ⟨1, 0xFFF8, rfl, rfl, rfl, ?_⟩ (by decide)
    rw [hx']
    decide
  · refine hhigh rfl (.word ⟨1, 0xFFFC, rfl, rfl, rfl, ?_⟩)
    rw [hx']
    decide

end LegMachine
