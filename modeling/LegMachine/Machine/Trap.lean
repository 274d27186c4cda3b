import LegMachine.Isa.Action
import LegMachine.Machine.Memory
import LegMachine.Machine.Processor

/-!
# Machines, traps and outcomes

A machine is a processor with its memory and the text that its services have written. Doing
something on a machine ends in one of three ways, each with the machine as it then is: it is done;
it stops at a trap, which is part of the machine's rules; or it meets a fault, a state that the
rules exclude, such as an operand that is not there.
-/

namespace LegMachine

/-- A processor, its memory, and what its services have written. -/
structure Machine where
  cpu : Processor
  memory : Memory
  console : String
  deriving DecidableEq

def Machine.mapCpu (f : Processor → Processor) (m : Machine) : Machine :=
  { m with cpu := f m.cpu }

inductive OperandFault where
  /-- A wide move names a halfword beyond the third. -/
  | laneOutOfRange
  /-- An operand of double precision is an odd register. -/
  | oddRegister
  /-- A floating-point action was asked for. -/
  | notFloatingPoint (action : Action)
  /-- A service refuses its operands. -/
  | refused (reason : String)
  deriving DecidableEq, Repr

def OperandFault.message : OperandFault → String
  | laneOutOfRange => "invalid value for LSL"
  | oddRegister => "all registers must be even-numbered for double-precision operands"
  | notFloatingPoint a => a.message ++ " is not a floating-point operation"
  | refused reason => reason

/-- What stops an instruction. -/
inductive TrapCause where
  | arithmeticOverflow
  | address (error : AddressError)
  | invalidOperand (fault : OperandFault)
  | invalidService (number : Word)
  | decodeMiss (word : Word)
  deriving DecidableEq, Repr

def TrapCause.message : TrapCause → String
  | arithmeticOverflow => "arithmetic overflow"
  | address e => e.message
  | invalidOperand f => f.message
  | invalidService n =>
    "invalid or unimplemented syscall service: " ++ String.ofList (Text.decimal n.toInt)
  | decodeMiss w => "no instruction matches word " ++ String.ofList (Text.hexWord w)

/-- A trap with the instruction that raised it. -/
structure Trap where
  pc : Word
  instruction : String
  cause : TrapCause
  deriving DecidableEq, Repr

def Trap.message (t : Trap) : String :=
  t.cause.message ++ " at " ++ String.ofList (Text.hexWord t.pc) ++ " (" ++ t.instruction ++ ")"

/-- A state that the rules of the machine exclude. -/
inductive Fault where
  | missingOperand (position : Nat)
  | noSuchRegister (number : Word)
  /-- An intermediate result does not fit into 64 bits. -/
  | intermediateOverflow
  /-- A text is cut inside a character. -/
  | dividedCharacter
  deriving DecidableEq, Repr

/-- How an activity on a machine ends, and the machine afterwards. -/
inductive Outcome (ε : Type) where
  | done (after : Machine)
  | trapped (cause : ε) (after : Machine)
  | fault (cause : Fault) (after : Machine)
  deriving DecidableEq

namespace Outcome

variable {ε : Type}

def machine : Outcome ε → Machine
  | done m => m
  | trapped _ m => m
  | fault _ m => m

/-- What stopped the activity, if a trap did. -/
def trap? : Outcome ε → Option ε
  | trapped e _ => some e
  | _ => none

def isDone : Outcome ε → Bool
  | done _ => true
  | _ => false

def andThen (o : Outcome ε) (next : Machine → Outcome ε) : Outcome ε :=
  match o with
  | done m => next m
  | trapped e m => trapped e m
  | fault f m => fault f m

end Outcome

end LegMachine
