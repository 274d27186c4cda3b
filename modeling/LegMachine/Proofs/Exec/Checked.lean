import LegMachine.Exec.Execute
import Mathlib.Algebra.Group.Int.Defs
import Mathlib.Algebra.Group.Nat.Defs

/-!
# Execution with all accesses checked

Instructions as they are executed on plain arrays. Operands are read by position and registers by
index, numbers are divided, shifted, and added and multiplied in 64 bits; each of these may meet a
hazard, and `Checked.execute` stops there. What it says of an action is what `execute` says, in so
far as there is no hazard.
-/

namespace LegMachine

/-- What stops an executor that reads and computes without looking. -/
inductive Hazard where
  /-- There is no operand at the position. -/
  | operand (position : Nat)
  /-- There is no integer register with the index. -/
  | integerRegister (index : Nat)
  /-- There is no floating-point register with the index. -/
  | floatRegister (index : Nat)
  | divisionByZero
  /-- The number that is shifted has no more bits than the amount. -/
  | shift (amount : Nat)
  /-- A result does not fit into 64 bits. -/
  | intermediate
  deriving DecidableEq, Repr

namespace Checked

/-! ## Operands and registers -/

def operand (ops : List Word) (position : Nat) : Except Hazard Word :=
  match ops[position]? with
  | some v => .ok v
  | none => .error (.operand position)

def index (ops : List Word) (position : Nat) : Except Hazard Nat := do
  return (← operand ops position).toNat

def x (p : Processor) (r : Nat) : Except Hazard Word :=
  if r = zeroRegister.val then .ok 0
  else match p.integers[r]? with
    | some v => .ok v
    | none => .error (.integerRegister r)

def setX (r : Nat) (v : Word) (p : Processor) : Except Hazard Processor :=
  if r = zeroRegister.val then .ok p
  else if h : r < 32 then .ok { p with integers := p.integers.set r v h }
  else .error (.integerRegister r)

def s (p : Processor) (r : Nat) : Except Hazard Word :=
  match p.floats[r]? with
  | some v => .ok v
  | none => .error (.floatRegister r)

def setS (r : Nat) (v : Word) (p : Processor) : Except Hazard Processor :=
  if h : r < 32 then .ok { p with floats := p.floats.set r v h }
  else .error (.floatRegister r)

/-- The value of the integer register that an operand names. -/
def xAt (ops : List Word) (position : Nat) (p : Processor) : Except Hazard Word := do
  x p (← index ops position)

def sAt (ops : List Word) (position : Nat) (p : Processor) : Except Hazard Word := do
  s p (← index ops position)

/-! ## Arithmetic -/

section

variable {n : Nat} (v : BitVec n) (amount : Nat)

def shiftLeft : Except Hazard (BitVec n) :=
  if amount < n then .ok (v <<< amount) else .error (.shift amount)

def shiftRight : Except Hazard (BitVec n) :=
  if amount < n then .ok (v >>> amount) else .error (.shift amount)

def shiftRightSigned : Except Hazard (BitVec n) :=
  if amount < n then .ok (v.sshiftRight amount) else .error (.shift amount)

end

def divide (isSigned : Bool) (a b : Word) : Except Hazard Word :=
  if b = 0 then .error .divisionByZero else .ok (if isSigned then a.sdiv b else a.udiv b)

def wide (v : Int) : Except Hazard (BitVec 64) :=
  if -2 ^ 63 ≤ v ∧ v < 2 ^ 63 then .ok (.ofInt 64 v) else .error .intermediate

def unsignedWide (v : Nat) : Except Hazard (BitVec 64) :=
  if v < 2 ^ 64 then .ok (.ofNat 64 v) else .error .intermediate

/-- The low bits of a word go to the top and come back with their sign. -/
def signExtend (width : Nat) (v : Word) : Except Hazard Word := do
  shiftRightSigned (← shiftLeft v (32 - width)) (32 - width)

/-- Add two signed integers; the carry comes from their low words. -/
def addWithFlags (a b : BitVec 64) : Except Hazard FlagSum := do
  let sum ← wide (a.toInt + b.toInt)
  let low ← unsignedWide ((a.setWidth 32).toNat + (b.setWidth 32).toNat)
  let carry ← shiftRight low 32
  return {
    result := sum.setWidth 32
    carry := carry != 0
    overflow := (sum.setWidth 32).signExtend 64 != sum }

def product (part : ProductPart) (a b : Word) : Except Hazard Word :=
  match part with
  | .low => do return (← wide (a.toInt * b.toInt)).setWidth 32
  | .signedHigh => do
    return (← shiftRightSigned (← wide (a.toInt * b.toInt)) 32).setWidth 32
  | .unsignedHigh => do
    return (← shiftRight (← unsignedWide (a.toNat * b.toNat)) 32).setWidth 32

/-! ## Families of instructions -/

abbrev Execution := Except Hazard (Outcome TrapCause)

def andThen (e : Execution) (next : Machine → Execution) : Execution := do
  match ← e with
  | .done m => next m
  | .trapped cause m => return .trapped cause m
  | .fault cause m => return .fault cause m

def mapCpu (f : Processor → Except Hazard Processor) (m : Machine) : Execution := do
  return .done { m with cpu := ← f m.cpu }

/-- Write the register that the first operand names. -/
def write (ops : List Word) (v : Word) (m : Machine) : Execution := do
  mapCpu (setX (← index ops 0) v) m

def sum (op : SumOp) (ops : List Word) (a b : Word) (m : Machine) : Execution :=
  if op.overflows a b then return .trapped .arithmeticOverflow m
  else write ops (op.apply a b) m

def sumFlags (ops : List Word) (a b : BitVec 64) (m : Machine) : Execution := do
  let sum ← addWithFlags a b
  write ops sum.result (m.mapCpu (·.setFlags sum.result sum.overflow sum.carry))

/-- Nothing is done for a divisor of zero. -/
def quotient (isSigned : Bool) (ops : List Word) (a b : Word) (m : Machine) : Execution := do
  if b = 0 then return .done m
  else write ops (← divide isSigned a b) m

def logic (setsFlags : Bool) (ops : List Word) (v : Word) (m : Machine) : Execution := do
  let d ← index ops 0
  m |> mapCpu fun p => do
    let p ← setX d v p
    return if setsFlags then p.setLogicFlags v else p

/-- Only the low five bits of the amount count. -/
def shift (direction : ShiftDirection) (ops : List Word) (v amount : Word) (m : Machine) :
    Execution := do
  match direction with
  | .left => write ops (← shiftLeft v (amount.toNat % 32)) m
  | .right => write ops (← shiftRight v (amount.toNat % 32)) m

def jumpIf (holds : Bool) (target : Except Hazard Word) (m : Machine) : Execution := do
  if holds then
    let target ← target
    return .done (m.mapCpu (·.jump target))
  else return .done m

def region (ops : List Word) (p : Processor) : Except Hazard Word := do
  return (p.pc &&& 0xF0000000) ||| (← shiftLeft (← operand ops 0) 2)

/-- A target counted from the instruction itself. -/
def fromHere (width : Nat) (ops : List Word) (position : Nat) (p : Processor) :
    Except Hazard Word := do
  return relativeTarget p.pc (← signExtend width (← operand ops position))

/-- A target counted from the next instruction. -/
def fromNext (ops : List Word) (p : Processor) : Except Hazard Word := do
  return p.pc + (← signExtend 16 (← operand ops 1)) <<< 2

def call (ops : List Word) (m : Machine) : Execution :=
  let skip := if m.cpu.config.delayedBranching then instructionLength else 0
  andThen (mapCpu (setX linkRegister (m.cpu.pc + skip)) m) fun m =>
    jumpIf true (region ops m.cpu) m

/-- The address that the second operand and the third one make. -/
def address (ops : List Word) (p : Processor) : Except Hazard Word := do
  return (← xAt ops 1 p) + (← signExtend 16 (← operand ops 2))

def load (width : Width) (address : Word) (take : Word → Processor → Except Hazard Processor)
    (m : Machine) : Execution :=
  match m.memory.load width.bytes address with
  | .error e => return .trapped (.address e) m
  | .ok v => mapCpu (take v) m

def loadTo (take : Nat → Word → Processor → Except Hazard Processor) (width : Width)
    (ops : List Word) (m : Machine) : Execution := do
  load width (← address ops m.cpu) (take (← index ops 0)) m

def store (width : Width) (ops : List Word) (v : Word) (m : Machine) : Execution := do
  return m.store width (← address ops m.cpu) v

def storeExclusive (ops : List Word) (m : Machine) : Execution := do
  let status ← index ops 1
  andThen (return m.store .word (← xAt ops 2 m.cpu) (← xAt ops 0 m.cpu)) (mapCpu (setX status 0))

/-- Only the lowest bit of the lane selects a halfword. -/
def moveWide (keep : Bool) (ops : List Word) (m : Machine) : Execution := do
  let v := lowHalf (← operand ops 1)
  let lane ← operand ops 2
  if lane < 4 then
    let amount := (lane &&& 1).toNat * 16
    let placed ← shiftLeft v amount
    if keep then
      let kept := (← xAt ops 0 m.cpu) &&& ~~~(← shiftLeft (0xFFFF : Word) amount)
      write ops (kept ||| placed) m
    else write ops placed m
  else return .trapped (.invalidOperand .laneOutOfRange) m

/-! ## Floating-point instructions -/

def withPairs (registers : List Nat) (m : Machine) (use : Execution) : Execution :=
  if registers.any (· % 2 != 0) then return .trapped (.invalidOperand .oddRegister) m
  else use

/-- The bits of a double, the high ones in the next register. -/
def double (p : Processor) (r : Nat) : Except Hazard (BitVec 64) := do
  let high ← s p (r + 1)
  let low ← s p r
  return (← shiftLeft (high.setWidth 64) 32) ||| low.setWidth 64

def setDouble (r : Nat) (bits : BitVec 64) (p : Processor) : Except Hazard Processor := do
  setS r (bits.setWidth 32) (← setS (r + 1) ((← shiftRight bits 32).setWidth 32) p)

def floatOp (op : Ieee.Operation) (precision : Precision) (ops : List Word) (m : Machine) :
    Execution := do
  match precision with
  | .single =>
    let v := op.apply .single (← sAt ops 1 m.cpu).toNat (← sAt ops 2 m.cpu).toNat
    mapCpu (setS (← index ops 0) (BitVec.ofNat 32 (Ieee.canonical .single v))) m
  | .double =>
    let d ← index ops 0
    let n ← index ops 1
    let k ← index ops 2
    withPairs [d, n, k] m do
      let v := op.apply .double (← double m.cpu n).toNat (← double m.cpu k).toNat
      mapCpu (setDouble d (BitVec.ofNat 64 (Ieee.canonical .double v))) m

def floatCompare (precision : Precision) (ops : List Word) (m : Machine) : Execution := do
  match precision with
  | .single =>
    let relation := Ieee.compare .single (← sAt ops 0 m.cpu).toNat (← sAt ops 1 m.cpu).toNat
    return .done (m.mapCpu (·.setRelation relation))
  | .double =>
    let n ← index ops 0
    let k ← index ops 1
    withPairs [n, k] m do
      let relation := Ieee.compare .double (← double m.cpu n).toNat (← double m.cpu k).toNat
      return .done (m.mapCpu (·.setRelation relation))

def loadPair (ops : List Word) (m : Machine) : Execution := do
  let d ← index ops 0
  withPairs [d] m do
    let a ← address ops m.cpu
    andThen (andThen (return m.checkPair .load a) (load .word a (setS d)))
      (load .word (a + 4) (setS (d + 1)))

def storePair (ops : List Word) (m : Machine) : Execution := do
  let d ← index ops 0
  withPairs [d] m do
    let a ← address ops m.cpu
    let low ← s m.cpu d
    let high ← s m.cpu (d + 1)
    return ((m.checkPair .store a).andThen (Machine.store .word a low)).andThen
      (Machine.store .word (a + 4) high)

/-! ## Actions -/

/-- Run an action on raw operands, unless there is a hazard. -/
def execute (services : Registry) (action : Action) (ops : List Word) (m : Machine) :
    Execution := do
  let p := m.cpu
  match action with
  | .nop => return .done m
  | .add => sum .add ops (← xAt ops 1 p) (← xAt ops 2 p) m
  | .sub => sum .sub ops (← xAt ops 1 p) (← xAt ops 2 p) m
  | .addi => sum .add ops (← xAt ops 1 p) (← signExtend 16 (← operand ops 2)) m
  | .subi => sum .sub ops (← xAt ops 1 p) (← signExtend 16 (← operand ops 2)) m
  | .adds => sumFlags ops ((← xAt ops 1 p).signExtend 64) ((← xAt ops 2 p).signExtend 64) m
  | .subs =>
    let b ← wide (-(← xAt ops 2 p).toInt)
    sumFlags ops ((← xAt ops 1 p).signExtend 64) b m
  | .addis =>
    let b ← signExtend 16 (← operand ops 2)
    sumFlags ops ((← xAt ops 1 p).signExtend 64) (b.signExtend 64) m
  | .subis =>
    let b ← signExtend 16 (-(← operand ops 2))
    sumFlags ops ((← xAt ops 1 p).signExtend 64) (b.signExtend 64) m
  | .mul => write ops (← product .low (← xAt ops 1 p) (← xAt ops 2 p)) m
  | .smulh => write ops (← product .signedHigh (← xAt ops 1 p) (← xAt ops 2 p)) m
  | .umulh => write ops (← product .unsignedHigh (← xAt ops 1 p) (← xAt ops 2 p)) m
  | .sdiv => quotient true ops (← xAt ops 1 p) (← xAt ops 2 p) m
  | .udiv => quotient false ops (← xAt ops 1 p) (← xAt ops 2 p) m
  | .and => logic false ops ((← xAt ops 1 p) &&& (← xAt ops 2 p)) m
  | .ands => logic true ops ((← xAt ops 1 p) &&& (← xAt ops 2 p)) m
  | .andi => logic false ops ((← xAt ops 1 p) &&& lowHalf (← operand ops 2)) m
  | .andis => logic true ops ((← xAt ops 1 p) &&& lowHalf (← operand ops 2)) m
  | .orr => logic false ops ((← xAt ops 1 p) ||| (← xAt ops 2 p)) m
  | .orri => logic false ops ((← xAt ops 1 p) ||| lowHalf (← operand ops 2)) m
  | .eor => logic false ops ((← xAt ops 1 p) ^^^ (← xAt ops 2 p)) m
  | .eori => logic false ops ((← xAt ops 1 p) ^^^ lowHalf (← operand ops 2)) m
  | .lsl => shift .left ops (← xAt ops 1 p) (← operand ops 2) m
  | .lsr => shift .right ops (← xAt ops 1 p) (← operand ops 2) m
  | .b => jumpIf true (region ops p) m
  | .bRel => jumpIf true (fromHere 26 ops 0 p) m
  | .bl => call ops m
  | .br => jumpIf true (xAt ops 0 p) m
  | .cbnz => jumpIf ((← xAt ops 0 p) != 0) (fromNext ops p) m
  | .cbz => jumpIf ((← xAt ops 0 p) == 0) (fromNext ops p) m
  | .cbnzRel => jumpIf ((← xAt ops 0 p) != 0) (fromHere 16 ops 1 p) m
  | .cbzRel => jumpIf ((← xAt ops 0 p) == 0) (fromHere 16 ops 1 p) m
  | .bCond c => jumpIf (c.holds p.flags) (region ops p) m
  | .svc => return services.dispatch (← x p serviceRegister) m
  | .ldxr => loadTo setX .word ops m
  | .ldur => loadTo setX .word ops m
  | .ldurb => loadTo setX .byte ops m
  | .ldurh => loadTo setX .half ops m
  | .stur => store .word ops (← xAt ops 0 p) m
  | .sturb => store .byte ops (← xAt ops 0 p) m
  | .sturh => store .half ops (← xAt ops 0 p) m
  | .stxr => storeExclusive ops m
  | .lda => write ops (← operand ops 1) m
  | .movz => moveWide false ops m
  | .movk => moveWide true ops m
  | .fadds => floatOp .add .single ops m
  | .fsubs => floatOp .sub .single ops m
  | .fmuls => floatOp .mul .single ops m
  | .fdivs => floatOp .div .single ops m
  | .faddd => floatOp .add .double ops m
  | .fsubd => floatOp .sub .double ops m
  | .fmuld => floatOp .mul .double ops m
  | .fdivd => floatOp .div .double ops m
  | .fcmps => floatCompare .single ops m
  | .fcmpd => floatCompare .double ops m
  | .ldurs => loadTo setS .word ops m
  | .ldurd => loadPair ops m
  | .sturs => store .word ops (← sAt ops 0 p) m
  | .sturd => storePair ops m

end Checked

end LegMachine
