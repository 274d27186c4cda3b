import LegMachine.Exec.Instruction
import LegMachine.Exec.Service
import LegMachine.Exec.Wide

/-!
# Execution of instructions

`Instruction.run` says what each instruction does to a machine whose program counter has already
moved on. What an instruction has done before a trap stays done: a pair of words is loaded or stored
word by word. `execute` runs an action on raw operands.
-/

namespace LegMachine

namespace SumOp

def apply : SumOp → Word → Word → Word
  | add, a, b => a + b
  | sub, a, b => a - b

/-- Whether the signs show that the result is not the sum or difference of the signed values. -/
def overflows : SumOp → Word → Word → Bool
  | add, a, b => a.msb == b.msb && (a + b).msb != a.msb
  | sub, a, b => a.msb != b.msb && (a - b).msb != a.msb

end SumOp

def Source.value (p : Processor) : Source → Word
  | register r => p.x r
  | immediate v => v

def Addend.value (p : Processor) : Addend → Int
  | register r => (p.x r).toInt
  | negated r => -(p.x r).toInt
  | immediate v => v.toInt

/-- The kept part of a product, if 64 bits hold the product. -/
def ProductPart.apply? (a b : Word) : ProductPart → Option Word
  | low => (wide? (a.toInt * b.toInt)).map (BitVec.ofInt 32)
  | signedHigh => (wide? (a.toInt * b.toInt)).map fun p => BitVec.ofInt 32 (p / 0x100000000)
  | unsignedHigh =>
    (unsignedWide? (a.toNat * b.toNat)).map fun p => BitVec.ofNat 32 (p / 0x100000000)

/-- The quotient rounded toward zero; there is none for a divisor of zero. -/
def quotient? (isSigned : Bool) (a b : Word) : Option Word :=
  if b = 0 then none else some (if isSigned then a.sdiv b else a.udiv b)

def LogicOp.apply : LogicOp → Word → Word → Word
  | and, a, b => a &&& b
  | or, a, b => a ||| b
  | xor, a, b => a ^^^ b

def ShiftDirection.apply : ShiftDirection → Word → Fin 32 → Word
  | left, v, n => v <<< n.val
  | right, v, n => v >>> n.val

def Test.holds (p : Processor) : Test → Bool
  | always => true
  | flags c => c.holds p.flags
  | zero r => p.x r == 0
  | nonzero r => p.x r != 0

def Target.address (p : Processor) : Target → Word
  | region field => regionTarget p.pc field
  | fromHere displacement => relativeTarget p.pc displacement
  | fromNext displacement => branchTarget p.pc displacement
  | register r => p.x r

namespace Processor

def effective (p : Processor) (n : Register) (offset : Word) : Word :=
  p.x n + offset

/-- Transfer control if the test holds; a call leaves the return address first. -/
def transfer (test : Test) (target : Target) (link : Bool) (p : Processor) : Processor :=
  if test.holds p then
    let address := target.address p
    (if link then p.linkReturn linkRegister else p).jump address
  else p

/-- A transfer to a target that is counted from the next instruction is a branch. -/
theorem transfer_fromNext {test : Test} {p : Processor} (h : test.holds p = true)
    (displacement : Word) :
    p.transfer test (.fromNext displacement) false = p.branch displacement :=
  if_pos h

/-- The value of a register after one halfword is written. -/
def movedWide (keep : Bool) (d : Register) (v lane : Word) (p : Processor) : Word :=
  let amount := if lane.getLsbD 0 then 16 else 0
  let placed := v <<< amount
  if keep then (p.x d &&& ~~~((0xFFFF : Word) <<< amount)) ||| placed else placed

def double (p : Processor) (pair : RegisterPair) : BitVec 64 :=
  p.s pair.upper ++ p.s pair.lower

/-- Write a single; a pattern without a value is made canonical. -/
def setSingle (r : Register) (pattern : Nat) (p : Processor) : Processor :=
  p.setS r (BitVec.ofNat 32 (Ieee.canonical .single pattern))

def setDouble (pair : RegisterPair) (pattern : Nat) (p : Processor) : Processor :=
  let bits := BitVec.ofNat 64 (Ieee.canonical .double pattern)
  (p.setS pair.upper (bits.extractLsb' 32 32)).setS pair.lower (bits.extractLsb' 0 32)

/-- The flags of a comparison: unordered sets Carry, equal Zero and oVerflow, less Negative, greater
oVerflow. -/
def setRelation (relation : Ieee.Relation) (p : Processor) : Processor :=
  match relation with
  | .unordered => p.setFlags 1 false true
  | .equal => p.setFlags 0 true false
  | .less => p.setFlags (-1) false false
  | .greater => p.setFlags 1 true false

end Processor

namespace Machine

/-- Load a word of some width and hand it to the processor. -/
def load (width : Width) (address : Word) (take : Word → Processor → Processor) (m : Machine) :
    Outcome TrapCause :=
  match m.memory.load width.bytes address with
  | .error e => .trapped (.address e) m
  | .ok v => .done (m.mapCpu (take v))

def store (width : Width) (address value : Word) (m : Machine) : Outcome TrapCause :=
  match m.memory.locate .store width.bytes width.bytes address with
  | .error e => .trapped (.address e) m
  | .ok offset =>
    .done { m with memory := m.memory.write offset (LittleEndian.split width.bytes value.toNat) }

/-- Refuse an address that is no multiple of eight. -/
def checkPair (access : Access) (address : Word) (m : Machine) : Outcome TrapCause :=
  if pairAligned address then .done m
  else .trapped (.address ⟨access, address, .misalignedPair⟩) m

/-- Load two words into a pair; the first stays loaded if the second traps. -/
def loadPair (pair : RegisterPair) (address : Word) (m : Machine) : Outcome TrapCause :=
  ((m.checkPair .load address).andThen (load .word address (Processor.setS pair.lower))).andThen
    (load .word (address + 4) (Processor.setS pair.upper))

/-- Store the two words of a pair; the first stays stored if the second traps. -/
def storePair (pair : RegisterPair) (address : Word) (m : Machine) : Outcome TrapCause :=
  let low := m.cpu.s pair.lower
  let high := m.cpu.s pair.upper
  ((m.checkPair .store address).andThen (store .word address low)).andThen
    (store .word (address + 4) high)

def withPair (r : Register) (m : Machine) (use : RegisterPair → Outcome TrapCause) :
    Outcome TrapCause :=
  match RegisterPair.ofRegister? r with
  | none => .trapped (.invalidOperand .oddRegister) m
  | some pair => use pair

end Machine

namespace Instruction

def run (services : Registry) (instruction : Instruction) (m : Machine) : Outcome TrapCause :=
  match instruction with
  | nop => .done m
  | sum op d n source =>
    let a := m.cpu.x n
    let b := source.value m.cpu
    if op.overflows a b then .trapped .arithmeticOverflow m
    else .done (m.mapCpu (·.setX d (op.apply a b)))
  | sumFlags d n addend =>
    match addWithFlags? (m.cpu.x n).toInt (addend.value m.cpu) with
    | none => .fault .intermediateOverflow m
    | some s => .done (m.mapCpu fun p => (p.setFlags s.result s.overflow s.carry).setX d s.result)
  | product part d n k =>
    match part.apply? (m.cpu.x n) (m.cpu.x k) with
    | none => .fault .intermediateOverflow m
    | some v => .done (m.mapCpu (·.setX d v))
  | quotient isSigned d n k =>
    match quotient? isSigned (m.cpu.x n) (m.cpu.x k) with
    | none => .done m
    | some v => .done (m.mapCpu (·.setX d v))
  | logic op setsFlags d n source =>
    let v := op.apply (m.cpu.x n) (source.value m.cpu)
    .done (m.mapCpu fun p => if setsFlags then (p.setX d v).setLogicFlags v else p.setX d v)
  | shift direction d n amount =>
    let v := direction.apply (m.cpu.x n) amount
    .done (m.mapCpu (·.setX d v))
  | transfer test target link => .done (m.mapCpu (·.transfer test target link))
  | service => services.dispatch (m.cpu.x serviceRegister) m
  | load width d n offset => m.load width (m.cpu.effective n offset) (Processor.setX d)
  | store width d n offset => m.store width (m.cpu.effective n offset) (m.cpu.x d)
  | storeExclusive t status n =>
    (m.store .word (m.cpu.x n) (m.cpu.x t)).andThen fun m => .done (m.mapCpu (·.setX status 0))
  | setAddress d v => .done (m.mapCpu (·.setX d v))
  | moveWide keep d v lane =>
    if lane < 4 then .done (m.mapCpu fun p => p.setX d (p.movedWide keep d v lane))
    else .trapped (.invalidOperand .laneOutOfRange) m
  | floatOp op .single d n k =>
    let v := op.apply .single (m.cpu.s n).toNat (m.cpu.s k).toNat
    .done (m.mapCpu (·.setSingle d v))
  | floatOp op .double d n k =>
    m.withPair d fun d => m.withPair n fun n => m.withPair k fun k =>
      let v := op.apply .double (m.cpu.double n).toNat (m.cpu.double k).toNat
      .done (m.mapCpu (·.setDouble d v))
  | floatCompare .single n k =>
    let relation := Ieee.compare .single (m.cpu.s n).toNat (m.cpu.s k).toNat
    .done (m.mapCpu (·.setRelation relation))
  | floatCompare .double n k =>
    m.withPair n fun n => m.withPair k fun k =>
      let relation := Ieee.compare .double (m.cpu.double n).toNat (m.cpu.double k).toNat
      .done (m.mapCpu (·.setRelation relation))
  | floatLoad .single d n offset => m.load .word (m.cpu.effective n offset) (Processor.setS d)
  | floatLoad .double d n offset =>
    m.withPair d fun d => m.loadPair d (m.cpu.effective n offset)
  | floatStore .single d n offset => m.store .word (m.cpu.effective n offset) (m.cpu.s d)
  | floatStore .double d n offset =>
    m.withPair d fun d => m.storePair d (m.cpu.effective n offset)

end Instruction

def execute (services : Registry) (action : Action) (operands : List Word) (m : Machine) :
    Outcome TrapCause :=
  match Instruction.ofOperands action operands with
  | .error f => .fault f m
  | .ok instruction => instruction.run services m

/-- Run an action of the floating-point unit; all others are refused. -/
def executeFloat (services : Registry) (action : Action) (operands : List Word) (m : Machine) :
    Outcome TrapCause :=
  if action.isFloat then execute services action operands m
  else .trapped (.invalidOperand (.notFloatingPoint action)) m

end LegMachine
