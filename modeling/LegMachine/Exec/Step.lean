import LegMachine.Disasm.Text
import LegMachine.Exec.Execute

/-!
# Steps and runs

A step fetches the word at the program counter, decodes it, moves the program counter on, executes
the instruction and lets the delay slot advance. A trap names the address and the text of the
instruction that raised it. A run takes steps up to a limit and stops at a trap or when the machine
is halted.
-/

namespace LegMachine

/-- What a machine needs beside its state. -/
structure Environment where
  decode : Word → Option Decoded
  services : Registry

/-- The trap of an instruction, with its text. -/
def Decoded.trap (d : Decoded) (pc : Word) (cause : TrapCause) (m : Machine) : Outcome Trap :=
  match d.print pc with
  | .ok text => .trapped ⟨pc, text, cause⟩ m
  | .error f => .fault f m

def step (env : Environment) (m : Machine) : Outcome Trap :=
  let pc := m.cpu.pc
  match m.memory.load 4 pc with
  | .error e => .trapped ⟨pc, "<fetch>", .address e⟩ m
  | .ok word =>
    match env.decode word with
    | none => .trapped ⟨pc, unknownWord word, .decodeMiss word⟩ m
    | some d =>
      match execute env.services d.descriptor.action d.operands
          (m.mapCpu (·.setPc (pc + instructionLength))) with
      | .done m => .done (m.mapCpu Processor.settle)
      | .trapped cause m => d.trap pc cause m
      | .fault f m => .fault f m

inductive Ending where
  | limit
  | halted
  | trapped (trap : Trap)
  | fault (cause : Fault)
  deriving DecidableEq

/-- The result of a run: the steps done, the machine afterwards, and why it ended. -/
structure Run where
  steps : Nat
  machine : Machine
  ending : Ending

/-- At most `limit` steps, behind `before` steps done already. -/
def runFrom (env : Environment) (before : Nat) : Nat → Machine → Run
  | 0, m => ⟨before, m, .limit⟩
  | limit + 1, m =>
    if m.cpu.halted then ⟨before, m, .halted⟩
    else match step env m with
      | .done m => runFrom env (before + 1) limit m
      | .trapped trap m => ⟨before, m, .trapped trap⟩
      | .fault f m => ⟨before, m, .fault f⟩

def run (env : Environment) (limit : Nat) (m : Machine) : Run :=
  runFrom env 0 limit m

end LegMachine
