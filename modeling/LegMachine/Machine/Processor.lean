import LegMachine.Machine.Flags
import LegMachine.Machine.DelaySlot

/-!
# The processor

The program counter, the flags, 32 integer registers, 32 floating-point registers and the delay
slot. The integer register 31 reads as zero and ignores writes. A pair is a floating-point register
with the next one, which hold the low and the high word of a double; instructions name pairs by even
registers only.
-/

namespace LegMachine

abbrev Register := Fin 32

/-- The register that takes the return address of a call. -/
def linkRegister : Register := 30

/-- The register that reads as zero. -/
def zeroRegister : Register := 31

/-- The register that holds the number of a service. -/
def serviceRegister : Register := 8

def instructionLength : Word := 4

/-- The target of a jump: the field counts words within the region of 2^28 bytes around `pc`. -/
def regionTarget (pc field : Word) : Word :=
  (pc &&& 0xF0000000) ||| field <<< 2

/-- The target of a branch: the displacement counts words from the advanced `pc`. -/
def branchTarget (pc displacement : Word) : Word :=
  pc + displacement <<< 2

/-- The target of a relative jump: the displacement counts words from the jump itself, which stands
before the advanced `pc`. -/
def relativeTarget (pc displacement : Word) : Word :=
  branchTarget pc displacement - instructionLength

/-- A floating-point register and the next one. -/
structure RegisterPair where
  lower : Register
  lower_lt : lower.val + 1 < 32
  deriving DecidableEq

namespace RegisterPair

/-- The pair that an even register begins. -/
def ofRegister? (r : Register) : Option RegisterPair :=
  if h : r.val % 2 = 0 then some ⟨r, by omega⟩ else none

def upper (p : RegisterPair) : Register :=
  ⟨p.lower.val + 1, p.lower_lt⟩

end RegisterPair

structure Config where
  /-- Taken branches wait for the instruction behind them. -/
  delayedBranching : Bool
  deriving DecidableEq, Repr

structure Processor where
  pc : Word
  flags : Flags
  /-- The integer registers, the zero register included. -/
  integers : Vector Word 32
  /-- The floating-point registers, as bit patterns. -/
  floats : Vector Word 32
  delay : DelaySlot
  halted : Bool
  config : Config
  deriving DecidableEq

namespace Processor

def initial (config : Config) : Processor where
  pc := 0
  flags := .clear
  integers := Vector.replicate 32 0
  floats := Vector.replicate 32 0
  delay := .empty
  halted := false
  config := config

/-- Start again at `pc`; registers and flags stay. -/
def reset (pc : Word) (p : Processor) : Processor :=
  { p with pc, delay := .empty, halted := false }

def x (p : Processor) (r : Register) : Word :=
  if r = zeroRegister then 0 else p.integers[r]

def setX (r : Register) (v : Word) (p : Processor) : Processor :=
  if r = zeroRegister then p else { p with integers := p.integers.set r v }

/-- The bits of a floating-point register. -/
def s (p : Processor) (r : Register) : Word :=
  p.floats[r]

def setS (r : Register) (v : Word) (p : Processor) : Processor :=
  { p with floats := p.floats.set r v }

def setPc (pc : Word) (p : Processor) : Processor :=
  { p with pc }

def setFlags (result : Word) (overflow carry : Bool) (p : Processor) : Processor :=
  { p with flags := p.flags.ofResult result overflow carry }

/-- Set Negative and Zero from a result; Carry and oVerflow stay. -/
def setLogicFlags (result : Word) (p : Processor) : Processor :=
  p.setFlags result p.flags.overflow p.flags.carry

/-- Continue at `target`, after the delay slot if there is one. -/
def jump (target : Word) (p : Processor) : Processor :=
  if p.config.delayedBranching then { p with delay := p.delay.register target }
  else p.setPc target

/-- Continue `displacement` words from the program counter. -/
def branch (displacement : Word) (p : Processor) : Processor :=
  p.jump (branchTarget p.pc displacement)

/-- Write the return address, behind the delay slot if there is one. -/
def linkReturn (r : Register) (p : Processor) : Processor :=
  p.setX r (p.pc + if p.config.delayedBranching then instructionLength else 0)

/-- An instruction has completed: the delay slot advances and a target that is due is taken. -/
def settle (p : Processor) : Processor :=
  match p.delay.advance with
  | (slot, none) => { p with delay := slot }
  | (slot, some target) => { p with delay := slot, pc := target }

@[simp] theorem x_zeroRegister (p : Processor) : p.x zeroRegister = 0 := by
  simp [x]

@[simp] theorem setX_zeroRegister (v : Word) (p : Processor) : p.setX zeroRegister v = p := by
  simp [setX]

@[simp] theorem s_setS (r q : Register) (v : Word) (p : Processor) :
    (p.setS r v).s q = if q = r then v else p.s q := by
  simp only [s, setS]
  by_cases h : q = r
  · simp [h]
  · have hne : r.val ≠ q.val := fun e => h (Fin.ext e.symm)
    simp [h, hne]

theorem x_setX (r q : Register) (v : Word) (p : Processor) :
    (p.setX r v).x q = if q = r ∧ r ≠ zeroRegister then v else p.x q := by
  by_cases hr : r = zeroRegister
  · simp [hr]
  · by_cases hq : q = r
    · simp [hq, hr, setX, x]
    · have hne : r.val ≠ q.val := fun e => hq (Fin.ext e.symm)
      simp [hq, hr, setX, x, hne]

end Processor

end LegMachine
