import LegMachine.Ieee.Arithmetic
import LegMachine.Machine.Trap

/-!
# Instructions

An instruction is an action with its operands in the form in which they are used: register numbers
are below 32, immediates are extended to words, the amount of a shift is below 32. `ofOperands`
makes one from an action and raw operands. It faults where an operand is missing or names no
register, and it looks at all of them before the instruction is run.
-/

namespace LegMachine

inductive SumOp where
  | add | sub
  deriving DecidableEq, Repr

/-- The second source of an operation. -/
inductive Source where
  | register (r : Register)
  | immediate (v : Word)
  deriving DecidableEq, Repr

/-- What a flag-setting form adds to its first source. -/
inductive Addend where
  | register (r : Register)
  /-- The register's value with the other sign. -/
  | negated (r : Register)
  | immediate (v : Word)
  deriving DecidableEq, Repr

inductive ProductPart where
  | low | signedHigh | unsignedHigh
  deriving DecidableEq, Repr

inductive LogicOp where
  | and | or | xor
  deriving DecidableEq, Repr

inductive ShiftDirection where
  | left | right
  deriving DecidableEq, Repr

/-- When control is transferred. -/
inductive Test where
  | always
  | flags (c : Condition)
  | zero (r : Register)
  | nonzero (r : Register)
  deriving DecidableEq, Repr

/-- Where control goes. -/
inductive Target where
  /-- A word of the current region. -/
  | region (field : Word)
  /-- A number of words from the instruction itself. -/
  | fromHere (displacement : Word)
  /-- A number of words from the next instruction. -/
  | fromNext (displacement : Word)
  | register (r : Register)
  deriving DecidableEq, Repr

inductive Width where
  | byte | half | word
  deriving DecidableEq, Repr

def Width.bytes : Width → Nat
  | byte => 1
  | half => 2
  | word => 4

/-- One floating-point register, or a pair of them. -/
inductive Precision where
  | single | double
  deriving DecidableEq, Repr

inductive Instruction where
  | nop
  /-- A sum that traps on overflow. -/
  | sum (op : SumOp) (d n : Register) (source : Source)
  /-- A sum that sets the flags. -/
  | sumFlags (d n : Register) (addend : Addend)
  | product (part : ProductPart) (d n m : Register)
  | quotient (isSigned : Bool) (d n m : Register)
  | logic (op : LogicOp) (setsFlags : Bool) (d n : Register) (source : Source)
  | shift (direction : ShiftDirection) (d n : Register) (amount : Fin 32)
  /-- A jump, branch or call. -/
  | transfer (test : Test) (target : Target) (link : Bool)
  /-- A call of a service. -/
  | service
  | load (width : Width) (d n : Register) (offset : Word)
  | store (width : Width) (d n : Register) (offset : Word)
  /-- Store `t` at the address in `n`, then clear the status register. -/
  | storeExclusive (t status n : Register)
  | setAddress (d : Register) (value : Word)
  /-- Write one halfword; the other is kept or cleared. -/
  | moveWide (keep : Bool) (d : Register) (value lane : Word)
  | floatOp (op : Ieee.Operation) (precision : Precision) (d n m : Register)
  | floatCompare (precision : Precision) (n m : Register)
  | floatLoad (precision : Precision) (d n : Register) (offset : Word)
  | floatStore (precision : Precision) (d n : Register) (offset : Word)
  deriving DecidableEq, Repr

namespace Operand

def word (operands : List Word) (position : Nat) : Except Fault Word :=
  match operands[position]? with
  | some v => .ok v
  | none => .error (.missingOperand position)

/-- The operand at a position, as the number of a register. -/
def register (operands : List Word) (position : Nat) : Except Fault Register := do
  let v ← word operands position
  if h : v.toNat < 32 then .ok ⟨v.toNat, h⟩ else .error (.noSuchRegister v)

/-- The amount of a shift, of which only the low five bits count. -/
def amount (v : Word) : Fin 32 :=
  ⟨v.toNat % 32, Nat.mod_lt _ (by decide)⟩

/-- An instruction over one register. -/
def one (operands : List Word) (make : Register → Instruction) : Except Fault Instruction := do
  return make (← register operands 0)

def two (operands : List Word) (make : Register → Register → Instruction) :
    Except Fault Instruction := do
  return make (← register operands 0) (← register operands 1)

def three (operands : List Word) (make : Register → Register → Register → Instruction) :
    Except Fault Instruction := do
  return make (← register operands 0) (← register operands 1) (← register operands 2)

def immediate (operands : List Word) (make : Word → Instruction) : Except Fault Instruction := do
  return make (← word operands 0)

def oneImmediate (operands : List Word) (make : Register → Word → Instruction) :
    Except Fault Instruction := do
  return make (← register operands 0) (← word operands 1)

def twoImmediate (operands : List Word) (make : Register → Register → Word → Instruction) :
    Except Fault Instruction := do
  return make (← register operands 0) (← register operands 1) (← word operands 2)

/-- An instruction over a register and two words. -/
def oneImmediates (operands : List Word) (make : Register → Word → Word → Instruction) :
    Except Fault Instruction := do
  return make (← register operands 0) (← word operands 1) (← word operands 2)

end Operand

namespace Instruction

open Operand in
/-- The instruction that an action is with these operands; further ones are ignored. All register
operands are checked at once. Read one at a time, a wide move to lane 9 of register 40 would be
refused for its lane before the register is used; here it faults. The register fields of the
built-in instructions have five bits, so for them the order makes no difference. -/
def ofOperands (action : Action) (ops : List Word) : Except Fault Instruction :=
  match action with
  | .nop => .ok nop
  | .add => three ops fun d n m => sum .add d n (.register m)
  | .sub => three ops fun d n m => sum .sub d n (.register m)
  | .addi => twoImmediate ops fun d n v => sum .add d n (.immediate (signExtendLow 16 v))
  | .subi => twoImmediate ops fun d n v => sum .sub d n (.immediate (signExtendLow 16 v))
  | .adds => three ops fun d n m => sumFlags d n (.register m)
  | .subs => three ops fun d n m => sumFlags d n (.negated m)
  | .addis => twoImmediate ops fun d n v => sumFlags d n (.immediate (signExtendLow 16 v))
  -- the sign changes before the immediate is extended
  | .subis => twoImmediate ops fun d n v => sumFlags d n (.immediate (signExtendLow 16 (-v)))
  | .mul => three ops (product .low)
  | .smulh => three ops (product .signedHigh)
  | .umulh => three ops (product .unsignedHigh)
  | .sdiv => three ops (quotient true)
  | .udiv => three ops (quotient false)
  | .and => three ops fun d n m => logic .and false d n (.register m)
  | .ands => three ops fun d n m => logic .and true d n (.register m)
  | .andi => twoImmediate ops fun d n v => logic .and false d n (.immediate (lowHalf v))
  | .andis => twoImmediate ops fun d n v => logic .and true d n (.immediate (lowHalf v))
  | .orr => three ops fun d n m => logic .or false d n (.register m)
  | .orri => twoImmediate ops fun d n v => logic .or false d n (.immediate (lowHalf v))
  | .eor => three ops fun d n m => logic .xor false d n (.register m)
  | .eori => twoImmediate ops fun d n v => logic .xor false d n (.immediate (lowHalf v))
  | .lsl => twoImmediate ops fun d n v => shift .left d n (amount v)
  | .lsr => twoImmediate ops fun d n v => shift .right d n (amount v)
  | .b => immediate ops fun v => transfer .always (.region v) false
  | .bRel => immediate ops fun v => transfer .always (.fromHere (signExtendLow 26 v)) false
  | .bl => immediate ops fun v => transfer .always (.region v) true
  | .br => one ops fun n => transfer .always (.register n) false
  | .cbnz => oneImmediate ops fun n v =>
    transfer (.nonzero n) (.fromNext (signExtendLow 16 v)) false
  | .cbz => oneImmediate ops fun n v => transfer (.zero n) (.fromNext (signExtendLow 16 v)) false
  | .cbnzRel => oneImmediate ops fun n v =>
    transfer (.nonzero n) (.fromHere (signExtendLow 16 v)) false
  | .cbzRel => oneImmediate ops fun n v =>
    transfer (.zero n) (.fromHere (signExtendLow 16 v)) false
  | .bCond c => immediate ops fun v => transfer (.flags c) (.region v) false
  | .svc => .ok service
  | .ldxr => twoImmediate ops fun d n v => load .word d n (signExtendLow 16 v)
  | .ldur => twoImmediate ops fun d n v => load .word d n (signExtendLow 16 v)
  | .ldurb => twoImmediate ops fun d n v => load .byte d n (signExtendLow 16 v)
  | .ldurh => twoImmediate ops fun d n v => load .half d n (signExtendLow 16 v)
  | .stur => twoImmediate ops fun d n v => store .word d n (signExtendLow 16 v)
  | .sturb => twoImmediate ops fun d n v => store .byte d n (signExtendLow 16 v)
  | .sturh => twoImmediate ops fun d n v => store .half d n (signExtendLow 16 v)
  | .stxr => three ops storeExclusive
  | .lda => oneImmediate ops setAddress
  | .movz => oneImmediates ops fun d v lane => moveWide false d (lowHalf v) lane
  | .movk => oneImmediates ops fun d v lane => moveWide true d (lowHalf v) lane
  | .fadds => three ops (floatOp .add .single)
  | .fsubs => three ops (floatOp .sub .single)
  | .fmuls => three ops (floatOp .mul .single)
  | .fdivs => three ops (floatOp .div .single)
  | .faddd => three ops (floatOp .add .double)
  | .fsubd => three ops (floatOp .sub .double)
  | .fmuld => three ops (floatOp .mul .double)
  | .fdivd => three ops (floatOp .div .double)
  | .fcmps => two ops (floatCompare .single)
  | .fcmpd => two ops (floatCompare .double)
  | .ldurs => twoImmediate ops fun d n v => floatLoad .single d n (signExtendLow 16 v)
  | .ldurd => twoImmediate ops fun d n v => floatLoad .double d n (signExtendLow 16 v)
  | .sturs => twoImmediate ops fun d n v => floatStore .single d n (signExtendLow 16 v)
  | .sturd => twoImmediate ops fun d n v => floatStore .double d n (signExtendLow 16 v)

end Instruction

end LegMachine
