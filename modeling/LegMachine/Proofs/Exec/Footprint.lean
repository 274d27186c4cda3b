import LegMachine.Proofs.Exec.Control
import LegMachine.Proofs.Exec.Leftover
import LegMachine.Proofs.Machine.ByteMap
import Mathlib.Logic.Basic

/-!
# What an instruction may change

The footprint of an action says what it may write: an integer register, some flags, floating-point
registers and a run of bytes. All else is the same behind it, however it ends, and it goes on
elsewhere only as a transfer that takes place (`execute_keeps`). This is proved for
instructions (`Instruction.run_changesOnly`), whose footprint is that of the action that they are
made from (`Instruction.footprint_of_operands`).
-/

namespace LegMachine

/-- The register behind another one; behind the last one stands the first. -/
def nextRegister (r : Register) : Register :=
  ⟨(r.val + 1) % 32, Nat.mod_lt _ (by decide)⟩

/-- What may be changed, besides the flow of control. -/
structure Footprint where
  integer : Option Register := none
  /-- The flags that may change, as bits. -/
  flags : BitVec 8 := 0
  floats : List Register := []
  /-- The first address and the number of the bytes that may change. -/
  bytes : Option (Word × Nat) := none
  deriving DecidableEq, Repr

def Footprint.Covers (fp : Footprint) (x : Word) : Prop :=
  ∃ a n, fp.bytes = some (a, n) ∧ a.toNat ≤ x.toNat ∧ x.toNat < a.toNat + n

/-- Nothing else has changed than may change. -/
structure Processor.ChangesOnly (fp : Footprint) (p q : Processor) : Prop where
  integers (r : Register) :
    q.integers.get r ≠ p.integers.get r → fp.integer = some r ∧ r ≠ zeroRegister
  flags (i : Nat) : q.flags.bits.getLsbD i ≠ p.flags.bits.getLsbD i → fp.flags.getLsbD i = true
  floats (r : Register) : q.floats.get r ≠ p.floats.get r → r ∈ fp.floats
  halted : q.halted = p.halted

structure Machine.ChangesOnly (fp : Footprint) (m after : Machine) : Prop where
  cpu : m.cpu.ChangesOnly fp after.cpu
  bytes (x : Word) : after.memory.byte? x ≠ m.memory.byte? x → fp.Covers x
  base : after.memory.base = m.memory.base
  size : after.memory.bytes.size = m.memory.bytes.size
  console : after.console = m.console

/-! ## The processor -/

namespace Flags

/-- Replacing the four flags keeps the spare bits. -/
theorem getLsbD_replace (f : Flags) (n z c v : Bool) {i : Nat} (hi : 4 ≤ i) :
    (f.replace n z c v).bits.getLsbD i = f.bits.getLsbD i := by
  by_cases hlt : i < 8
  · have hspare : (0xF0 : BitVec 8).getLsbD i = true := by
      revert i
      decide
    have hfour : ∀ b : BitVec 4, (b.setWidth 8).getLsbD i = false := by
      intro b
      rw [BitVec.getLsbD_setWidth, BitVec.getLsbD_of_ge b i hi, Bool.and_false]
    rw [replace, spare, BitVec.getLsbD_or, BitVec.getLsbD_and, hspare, hfour, Bool.and_true,
      Bool.or_false]
  · rw [BitVec.getLsbD_of_ge _ i (by omega), BitVec.getLsbD_of_ge _ i (by omega)]

end Flags

namespace Processor

variable {fp : Footprint} {p q : Processor}

theorem ChangesOnly.refl (fp : Footprint) (p : Processor) : p.ChangesOnly fp p where
  integers _ h := absurd rfl h
  flags _ h := absurd rfl h
  floats _ h := absurd rfl h
  halted := rfl

theorem ChangesOnly.trans {p' : Processor} (h : p.ChangesOnly fp q) (h' : q.ChangesOnly fp p') :
    p.ChangesOnly fp p' where
  integers r hr :=
    (hr.ne_or_ne (q.integers.get r)).elim (h'.integers r) fun hne => h.integers r hne.symm
  flags i hi :=
    (hi.ne_or_ne (q.flags.bits.getLsbD i)).elim (h'.flags i) fun hne => h.flags i hne.symm
  floats r hr := (hr.ne_or_ne (q.floats.get r)).elim (h'.floats r) fun hne => h.floats r hne.symm
  halted := h'.halted.trans h.halted

theorem changesOnly_setX {r : Register} (hr : fp.integer = some r) (v : Word) (p : Processor) :
    p.ChangesOnly fp (p.setX r v) := by
  unfold setX
  split
  · exact .refl fp p
  · next hzero =>
    refine { ChangesOnly.refl fp p with integers := fun q hq => ?_ }
    by_cases h : r = q
    · exact ⟨hr.trans (congrArg some h), h ▸ hzero⟩
    · have hne : r.val ≠ q.val := fun e => h (Fin.ext e)
      exact absurd (Vector.getElem_set_ne r.isLt q.isLt hne) hq

theorem changesOnly_setS {r : Register} (hr : r ∈ fp.floats) (v : Word) (p : Processor) :
    p.ChangesOnly fp (p.setS r v) := by
  refine { ChangesOnly.refl fp p with floats := fun q hq => ?_ }
  by_cases h : r = q
  · exact h ▸ hr
  · have hne : r.val ≠ q.val := fun e => h (Fin.ext e)
    exact absurd (Vector.getElem_set_ne r.isLt q.isLt hne) hq

theorem changesOnly_setFlags (hflags : fp.flags = 0b1111) (result : Word)
    (overflow carry : Bool) (p : Processor) :
    p.ChangesOnly fp (p.setFlags result overflow carry) := by
  refine { ChangesOnly.refl fp p with flags := fun i hi => ?_ }
  have hlt : i < 4 := Nat.lt_of_not_le fun h => hi (Flags.getLsbD_replace p.flags _ _ _ _ h)
  have hfour : ∀ i < 4, (0b1111 : BitVec 8).getLsbD i = true := by decide
  rw [hflags]
  exact hfour i hlt

theorem changesOnly_setRelation (hflags : fp.flags = 0b1111) (relation : Ieee.Relation)
    (p : Processor) : p.ChangesOnly fp (p.setRelation relation) := by
  cases relation <;> exact changesOnly_setFlags hflags ..

/-- Carry and oVerflow are replaced by themselves. -/
theorem changesOnly_setLogicFlags (hflags : fp.flags = 0b1100) (result : Word) (p : Processor) :
    p.ChangesOnly fp (p.setLogicFlags result) := by
  refine { ChangesOnly.refl fp p with flags := fun i hi => ?_ }
  have hlt : i < 4 := Nat.lt_of_not_le fun h => hi (Flags.getLsbD_replace p.flags _ _ _ _ h)
  obtain ⟨-, -, hcarry, hoverflow⟩ := p.flags.replace_bits result.msb (result == 0)
    p.flags.carry p.flags.overflow
  rw [hflags]
  match i with
  | 0 => exact absurd hoverflow hi
  | 1 => exact absurd hcarry hi
  | 2 | 3 => rfl

theorem changesOnly_jump (fp : Footprint) (target : Word) (p : Processor) :
    p.ChangesOnly fp (p.jump target) := by
  unfold jump
  split <;> exact ⟨fun _ h => absurd rfl h, fun _ h => absurd rfl h, fun _ h => absurd rfl h, rfl⟩

theorem changesOnly_transfer {link : Bool} (hlink : link = true → fp.integer = some linkRegister)
    (test : Test) (target : Target) (p : Processor) :
    p.ChangesOnly fp (p.transfer test target link) := by
  unfold transfer
  split
  · cases link with
    | false => exact changesOnly_jump fp _ p
    | true => exact (changesOnly_setX (hlink rfl) _ p).trans (changesOnly_jump fp _ _)
  · exact .refl fp p

theorem changesOnly_setDouble {pair : RegisterPair} (hlower : pair.lower ∈ fp.floats)
    (hupper : pair.upper ∈ fp.floats) (pattern : Nat) (p : Processor) :
    p.ChangesOnly fp (p.setDouble pair pattern) :=
  (changesOnly_setS hupper _ p).trans (changesOnly_setS hlower _ _)

end Processor

/-! ## Accesses -/

theorem ByteMap.put_of_outside (f : ByteMap) {a x : Word} {data : List UInt8}
    (h : ¬ (a.toNat ≤ x.toNat ∧ x.toNat < a.toNat + data.length)) : f.put a data x = f x := by
  have hnone : ofData a data x = none := by
    unfold ofData
    split
    · next hle =>
      have hle' : a.toNat ≤ x.toNat := hle
      exact List.getElem?_eq_none (by omega)
    · rfl
  rw [put, hnone, Option.none_or]

theorem RegisterPair.upper_eq (pair : RegisterPair) : pair.upper = nextRegister pair.lower := by
  have hlt := pair.lower_lt
  apply Fin.ext
  show pair.lower.val + 1 = (pair.lower.val + 1) % 32
  omega

namespace Machine

variable {fp : Footprint} {m after : Machine}

theorem ChangesOnly.refl (fp : Footprint) (m : Machine) : m.ChangesOnly fp m where
  cpu := .refl fp m.cpu
  bytes _ h := absurd rfl h
  base := rfl
  size := rfl
  console := rfl

theorem ChangesOnly.trans {m' : Machine} (h : m.ChangesOnly fp after)
    (h' : after.ChangesOnly fp m') : m.ChangesOnly fp m' where
  cpu := h.cpu.trans h'.cpu
  bytes x hx :=
    (hx.ne_or_ne (after.memory.byte? x)).elim (h'.bytes x) fun hne => h.bytes x hne.symm
  base := h'.base.trans h.base
  size := h'.size.trans h.size
  console := h'.console.trans h.console

theorem changesOnly_done {f : Processor → Processor} (h : m.cpu.ChangesOnly fp (f m.cpu)) :
    m.ChangesOnly fp (Outcome.done (ε := TrapCause) (m.mapCpu f)).machine :=
  { ChangesOnly.refl fp m with cpu := h }

theorem changesOnly_andThen {ε : Type} {o : Outcome ε} {next : Machine → Outcome ε}
    (h : m.ChangesOnly fp o.machine)
    (hnext : ∀ after : Machine, after.ChangesOnly fp (next after).machine) :
    m.ChangesOnly fp (o.andThen next).machine := by
  cases o with
  | done after => exact h.trans (hnext after)
  | trapped _ _ | fault _ _ => exact h

theorem changesOnly_load {take : Word → Processor → Processor}
    (htake : ∀ v (p : Processor), p.ChangesOnly fp (take v p)) (width : Width) (address : Word)
    (m : Machine) :
    m.ChangesOnly fp (m.load width address take).machine := by
  unfold load
  split
  · exact .refl fp m
  · exact changesOnly_done (htake _ m.cpu)

/-- A store writes the bytes from its address on. -/
theorem changesOnly_store {width : Width} {address : Word}
    (hin : ∀ x : Word, address.toNat ≤ x.toNat → x.toNat < address.toNat + width.bytes →
      fp.Covers x) (v : Word) (m : Machine) :
    m.ChangesOnly fp (m.store width address v).machine := by
  unfold store
  split
  · exact .refl fp m
  · next offset hlocate =>
    obtain ⟨-, hmaps, rfl⟩ := Memory.locate_eq_ok.1 hlocate
    have hdata : m.memory.Maps (LittleEndian.split width.bytes v.toNat).length address := by
      rwa [LittleEndian.length_split]
    refine { ChangesOnly.refl fp m with bytes := fun x hx => ?_, base := ?_, size := ?_ }
    · by_contra hout
      refine hx ?_
      show (m.memory.write _ _).byte? x = m.memory.byte? x
      rw [Memory.byte?_write hdata, ByteMap.put_of_outside]
      rw [LittleEndian.length_split]
      exact fun h => hout (hin x h.1 h.2)
    · exact Memory.base_write ..
    · exact Memory.size_write ..

theorem changesOnly_withPair {r : Register} {use : RegisterPair → Outcome TrapCause}
    (huse : ∀ pair : RegisterPair, pair.lower = r → m.ChangesOnly fp (use pair).machine) :
    m.ChangesOnly fp (m.withPair r use).machine := by
  by_cases heven : r.val % 2 = 0
  · obtain ⟨pair, hlower, hpair⟩ := withPair_of_even (m := m) heven use
    rw [hpair]
    exact huse pair hlower
  · rw [withPair_of_odd heven]
    exact .refl fp m

theorem changesOnly_checkPair (access : Access) (address : Word) (m : Machine) :
    m.ChangesOnly fp (m.checkPair access address).machine := by
  unfold checkPair
  split <;> exact .refl fp m

theorem changesOnly_loadPair {pair : RegisterPair} (hlower : pair.lower ∈ fp.floats)
    (hupper : pair.upper ∈ fp.floats) (address : Word) (m : Machine) :
    m.ChangesOnly fp (m.loadPair pair address).machine := by
  unfold loadPair
  refine changesOnly_andThen (changesOnly_andThen (changesOnly_checkPair ..) ?_) ?_
  · exact changesOnly_load (Processor.changesOnly_setS hlower) .word _
  · exact changesOnly_load (Processor.changesOnly_setS hupper) .word _

theorem changesOnly_storePair {address : Word} (hbytes : fp.bytes = some (address, 8))
    (pair : RegisterPair) (m : Machine) :
    m.ChangesOnly fp (m.storePair pair address).machine := by
  unfold storePair
  by_cases haligned : address.toNat % 8 = 0
  · have hsecond := Memory.toNat_second haligned
    have hword : Width.word.bytes = 4 := rfl
    rw [checkPair_of_aligned haligned]
    refine changesOnly_andThen (changesOnly_store ?_ _ m) (changesOnly_store ?_ _)
    · intro x hle hlt
      exact ⟨address, 8, hbytes, hle, by omega⟩
    · intro x hle hlt
      exact ⟨address, 8, hbytes, by omega, by omega⟩
  · rw [checkPair_of_misaligned haligned]
    exact .refl fp m

end Machine

/-! ## Instructions -/

namespace Instruction

def footprint (p : Processor) : Instruction → Footprint
  | nop | service => {}
  | sum _ d _ _ | product _ d _ _ | quotient _ d _ _ | shift _ d _ _ | load _ d _ _
  | setAddress d _ | moveWide _ d _ _ => { integer := some d }
  | sumFlags d _ _ => { integer := some d, flags := 0b1111 }
  | logic _ setsFlags d _ _ => { integer := some d, flags := if setsFlags then 0b1100 else 0 }
  | transfer _ _ link => { integer := if link then some linkRegister else none }
  | store width _ n offset => { bytes := some (p.effective n offset, width.bytes) }
  | storeExclusive _ status n => { integer := some status, bytes := some (p.x n, 4) }
  | floatOp _ .single d _ _ | floatLoad .single d _ _ => { floats := [d] }
  | floatOp _ .double d _ _ | floatLoad .double d _ _ => { floats := [d, nextRegister d] }
  | floatCompare _ _ _ => { flags := 0b1111 }
  | floatStore .single _ n offset => { bytes := some (p.effective n offset, 4) }
  | floatStore .double _ n offset => { bytes := some (p.effective n offset, 8) }

open Machine Processor in
/-- However an instruction ends, it has changed nothing but what it may. -/
theorem run_changesOnly {i : Instruction} (hi : i ≠ .service) (services : Registry)
    (m : Machine) : m.ChangesOnly (i.footprint m.cpu) (i.run services m).machine := by
  cases i with
  | service => exact absurd rfl hi
  | nop => exact .refl _ m
  | sum op d n source =>
    unfold run
    dsimp only
    split
    · exact .refl _ m
    · exact changesOnly_done (changesOnly_setX rfl _ m.cpu)
  | sumFlags d n addend =>
    unfold run
    dsimp only
    split
    · exact .refl _ m
    · refine changesOnly_done ?_
      exact (changesOnly_setFlags rfl _ _ _ m.cpu).trans (changesOnly_setX rfl _ _)
  | product _ d _ _ | quotient _ d _ _ =>
    unfold run
    dsimp only
    split
    · exact .refl _ m
    · exact changesOnly_done (changesOnly_setX rfl _ m.cpu)
  | logic op setsFlags d n source =>
    refine changesOnly_done ?_
    cases setsFlags with
    | false => exact changesOnly_setX rfl _ m.cpu
    | true => exact (changesOnly_setX rfl _ m.cpu).trans (changesOnly_setLogicFlags rfl _ _)
  | shift _ d _ _ | setAddress d _ => exact changesOnly_done (changesOnly_setX rfl _ m.cpu)
  | transfer test target link =>
    refine changesOnly_done (changesOnly_transfer (fun hlink => ?_) test target m.cpu)
    exact if_pos hlink
  | load width d n offset => exact changesOnly_load (changesOnly_setX rfl) width _ m
  | store width d n offset =>
    exact changesOnly_store (fun x hle hlt => ⟨_, _, rfl, hle, hlt⟩) _ m
  | storeExclusive t status n =>
    refine changesOnly_andThen (changesOnly_store (fun x hle hlt => ⟨_, _, rfl, hle, hlt⟩) _ m)
      fun after => ?_
    exact changesOnly_done (changesOnly_setX rfl 0 after.cpu)
  | moveWide keep d v lane =>
    unfold run
    dsimp only
    split
    · exact changesOnly_done (changesOnly_setX rfl _ m.cpu)
    · exact .refl _ m
  | floatOp op precision d n k =>
    cases precision with
    | single => exact changesOnly_done (changesOnly_setS List.mem_cons_self _ m.cpu)
    | double =>
      refine changesOnly_withPair fun pair hd => changesOnly_withPair fun _ _ =>
        changesOnly_withPair fun _ _ => changesOnly_done ?_
      exact changesOnly_setDouble (by simp [footprint, hd]) (by simp [footprint, pair.upper_eq, hd])
        _ m.cpu
  | floatCompare precision n k =>
    cases precision with
    | single => exact changesOnly_done (changesOnly_setRelation rfl _ m.cpu)
    | double =>
      exact changesOnly_withPair fun _ _ => changesOnly_withPair fun _ _ =>
        changesOnly_done (changesOnly_setRelation rfl _ m.cpu)
  | floatLoad precision d n offset =>
    cases precision with
    | single => exact changesOnly_load (changesOnly_setS List.mem_cons_self) .word _ m
    | double =>
      refine changesOnly_withPair fun pair hd => ?_
      exact changesOnly_loadPair (by simp [footprint, hd]) (by simp [footprint, pair.upper_eq, hd])
        _ m
  | floatStore precision d n offset =>
    cases precision with
    | single => exact changesOnly_store (fun x hle hlt => ⟨_, _, rfl, hle, hlt⟩) _ m
    | double => exact changesOnly_withPair fun pair _ => changesOnly_storePair rfl pair m

end Instruction

/-! ## Actions -/

namespace Action

open Operand

/-- The integer register that an action writes: the first operand names it, the second one that of
an exclusive store, and a call writes the return address. -/
def integerWritten (ops : List Word) : Action → Option Register
  | bl => some linkRegister
  | stxr => (register ops 1).toOption
  | nop | b | bRel | br | cbnz | cbz | cbnzRel | cbzRel | bCond _ | svc | stur | sturb | sturh
  | fadds | fsubs | fmuls | fdivs | faddd | fsubd | fmuld | fdivd | ldurs | ldurd | sturs | sturd
  | fcmps | fcmpd => none
  | _ => (register ops 0).toOption

def flagsWritten : Action → BitVec 8
  | adds | subs | addis | subis | fcmps | fcmpd => 0b1111
  | ands | andis => 0b1100
  | _ => 0

/-- The floating-point registers that an action writes: the first operand names the register, or the
pair. -/
def floatsWritten (ops : List Word) : Action → List Register
  | ldurs | fadds | fsubs | fmuls | fdivs => (register ops 0).toOption.toList
  | ldurd | faddd | fsubd | fmuld | fdivd =>
    (register ops 0).toOption.toList.flatMap fun d => [d, nextRegister d]
  | _ => []

def bytesStored : Action → Option Nat
  | stur | stxr | sturs => some 4
  | sturb => some 1
  | sturh => some 2
  | sturd => some 8
  | _ => none

def storeAddress (ops : List Word) (p : Processor) : Action → Option Word
  | stxr => (register ops 2).toOption.map p.x
  | _ => (register ops 1).toOption.bind fun n =>
    (word ops 2).toOption.map fun v => p.effective n (signExtendLow 16 v)

/-- What an action may change. -/
def footprint (ops : List Word) (p : Processor) (action : Action) : Footprint where
  integer := action.integerWritten ops
  flags := action.flagsWritten
  floats := action.floatsWritten ops
  bytes := action.bytesStored.bind fun n => (action.storeAddress ops p).map fun a => (a, n)

end Action

open Operand in
/-- An instruction has the footprint of the action that it is made from. -/
theorem Instruction.footprint_of_operands {action : Action} {ops : List Word} {i : Instruction}
    (h : ofOperands action ops = .ok i) (p : Processor) :
    action.footprint ops p = i.footprint p := by
  cases action with
  | nop | svc =>
    cases h
    rfl
  | add | sub | adds | subs | mul | smulh | umulh | sdiv | udiv | and | ands | orr | eor | stxr
  | fadds | fsubs | fmuls | fdivs | faddd | fsubd | fmuld | fdivd =>
    obtain ⟨d, hd, n, hn, k, hk, rfl⟩ := three_eq_ok.1 h
    simp [Action.footprint, Action.integerWritten, Action.flagsWritten, Action.floatsWritten,
      Action.bytesStored, Action.storeAddress, footprint, hd, hn, hk, Except.toOption]
  | addi | addis | subi | subis | andi | andis | orri | eori | ldxr | ldur | ldurb | ldurh | stur
  | sturb | sturh | ldurs | ldurd | sturs | sturd | lsl | lsr =>
    obtain ⟨d, hd, n, hn, v, hv, rfl⟩ := twoImmediate_eq_ok.1 h
    simp [Action.footprint, Action.integerWritten, Action.flagsWritten, Action.floatsWritten,
      Action.bytesStored, Action.storeAddress, footprint, hd, hn, hv, Except.toOption, Width.bytes]
  | b | bl | bCond | bRel =>
    obtain ⟨v, -, rfl⟩ := immediate_eq_ok.1 h
    rfl
  | br =>
    obtain ⟨n, -, rfl⟩ := one_eq_ok.1 h
    rfl
  | cbnz | cbz | cbnzRel | cbzRel | lda =>
    obtain ⟨d, hd, v, -, rfl⟩ := oneImmediate_eq_ok.1 h
    simp [Action.footprint, Action.integerWritten, Action.flagsWritten, Action.floatsWritten,
      Action.bytesStored, footprint, hd, Except.toOption]
  | movz | movk =>
    obtain ⟨d, hd, v, -, l, -, rfl⟩ := oneImmediates_eq_ok.1 h
    simp [Action.footprint, Action.integerWritten, Action.flagsWritten, Action.floatsWritten,
      Action.bytesStored, footprint, hd, Except.toOption]
  | fcmps | fcmpd =>
    obtain ⟨n, -, k, -, rfl⟩ := two_eq_ok.1 h
    rfl

/-- A transfer goes on elsewhere only if it takes place, at once or behind the delay slot. -/
theorem Processor.control_transfer (test : Test) (target : Target) (link : Bool) (p : Processor) :
    ((p.transfer test target link).pc ≠ p.pc →
      test.holds p = true ∧ p.config.delayedBranching = false) ∧
    ((p.transfer test target link).delay ≠ p.delay →
      test.holds p = true ∧ p.config.delayedBranching = true) ∧
    (p.transfer test target link).config = p.config := by
  have hlinked : ∃ q : Processor, (if link then p.linkReturn linkRegister else p) = q ∧
      q.pc = p.pc ∧ q.delay = p.delay ∧ q.config = p.config := by
    cases link <;> exact ⟨_, rfl, rfl, rfl, rfl⟩
  obtain ⟨q, hq, hpc, hdelay, hconfig⟩ := hlinked
  unfold transfer
  split
  · next hholds =>
    dsimp only
    rw [hq, jump, hconfig]
    cases hmode : p.config.delayedBranching with
    | false => exact ⟨fun _ => ⟨hholds, rfl⟩, fun h => absurd hdelay h, hconfig⟩
    | true => exact ⟨fun h => absurd hpc h, fun _ => ⟨hholds, rfl⟩, rfl⟩
  · exact ⟨fun h => absurd rfl h, fun h => absurd rfl h, rfl⟩

/-- What an action on some operands leaves as it was. -/
structure Action.Keeps (action : Action) (ops : List Word) (m after : Machine) : Prop where
  footprint : m.ChangesOnly (action.footprint ops m.cpu) after
  pc : after.cpu.pc ≠ m.cpu.pc →
    action.Transfers ops m.cpu ∧ m.cpu.config.delayedBranching = false
  delay : after.cpu.delay ≠ m.cpu.delay →
    action.Transfers ops m.cpu ∧ m.cpu.config.delayedBranching = true
  config : after.cpu.config = m.cpu.config

/-- Whatever an action is executed on, and however it ends, it changes nothing but its footprint,
and it goes on elsewhere only as a transfer that takes place. -/
theorem execute_keeps (services : Registry) {action : Action} (haction : action ≠ .svc)
    (ops : List Word) (m : Machine) :
    action.Keeps ops m (execute services action ops m).machine := by
  unfold execute
  cases hi : Instruction.ofOperands action ops with
  | error f =>
    exact ⟨.refl _ m, fun h => absurd rfl h, fun h => absurd rfl h, rfl⟩
  | ok i =>
    dsimp only
    have hservice : i ≠ .service := by
      rintro rfl
      exact haction (Instruction.ofOperands_eq_service.1 hi)
    have hchanges := Instruction.run_changesOnly hservice services m
    rw [← Instruction.footprint_of_operands hi] at hchanges
    cases Instruction.control_of_operands hi with
    | service h => exact absurd h haction
    | straight hstraight =>
      obtain ⟨hpc, hdelay, hconfig⟩ := Instruction.run_keeps_control hstraight services m
      exact ⟨hchanges, fun h => absurd hpc h, fun h => absurd hdelay h, hconfig⟩
    | @transfer test target link _ hholds =>
      obtain ⟨hpc, hdelay, hconfig⟩ := m.cpu.control_transfer test target link
      exact ⟨hchanges, fun h => (hpc h).imp_left (hholds m.cpu).1,
        fun h => (hdelay h).imp_left (hholds m.cpu).1, hconfig⟩

/-- A pair is stored at the address 8: the bytes before and behind it stay, and so do the
registers. -/
theorem execute_keeps_pairStore :
    let m : Machine := ⟨.initial ⟨false⟩, .zeroed 24 0, ""⟩
    let ops : List Word := [2, 31, 8]
    Action.sturd ≠ .svc ∧ ∃ after, execute .empty .sturd ops m = .done after ∧
      (∀ x : Word, after.memory.byte? x ≠ m.memory.byte? x → 8 ≤ x.toNat ∧ x.toNat < 8 + 8) ∧
      ∀ r : Register, after.cpu.integers.get r = m.cpu.integers.get r := by
  intro m ops
  have haction : Action.sturd ≠ .svc := nofun
  have hkeeps := execute_keeps .empty haction ops m
  have hdone : (execute .empty .sturd ops m).isDone = true := by decide +kernel
  have hfootprint : Action.footprint ops m.cpu .sturd = { bytes := some (8, 8) } := by decide
  cases hexec : execute .empty .sturd ops m with
  | done after =>
    rw [hexec] at hkeeps
    obtain ⟨hcpu, hbytes, -, -, -⟩ := hkeeps.footprint
    rw [hfootprint] at hcpu hbytes
    refine ⟨haction, after, rfl, fun x hx => ?_, fun r => ?_⟩
    · obtain ⟨_, _, ⟨⟩, hx⟩ := hbytes x hx
      exact hx
    · by_contra hr
      cases (hcpu.integers r hr).1
  | trapped _ _ | fault _ _ =>
    rw [hexec] at hdone
    cases hdone

end LegMachine
