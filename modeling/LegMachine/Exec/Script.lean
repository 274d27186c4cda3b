import LegMachine.Exec.Execute

/-!
# Scripted services

A service can be given as a list of effects, which run in order. The first one that fails ends the
service, and what the ones before it did stays done.
-/

namespace LegMachine

/-- One thing that a scripted service does. -/
inductive Effect where
  | setX (r : Register) (v : Word)
  | addX (r : Register) (v : Word)
  /-- Store the word of one register at the address in another. -/
  | storeWord (address value : Register)
  /-- Store the low byte of one register at the address in another. -/
  | storeByte (address value : Register)
  | loadWord (address d : Register)
  | jump (target : Word)
  | halt
  | overflow
  | fail (reason : String)
  /-- Write the signed value of a register in decimal. -/
  | printInteger (r : Register)
  /-- Write the character with the number in the low byte of a register. -/
  | printCharacter (r : Register)
  deriving DecidableEq, Repr

namespace Effect

def run (m : Machine) : Effect → Outcome TrapCause
  | setX r v => .done (m.mapCpu (·.setX r v))
  | addX r v => .done (m.mapCpu fun p => p.setX r (p.x r + v))
  | storeWord a v => m.store .word (m.cpu.x a) (m.cpu.x v)
  | storeByte a v => m.store .byte (m.cpu.x a) (m.cpu.x v)
  | loadWord a d => m.load .word (m.cpu.x a) (Processor.setX d)
  | jump t => .done (m.mapCpu (·.jump t))
  | halt => .done (m.mapCpu fun p => { p with halted := true })
  | overflow => .trapped .arithmeticOverflow m
  | fail reason => .trapped (.invalidOperand (.refused reason)) m
  | printInteger r =>
    let text := String.ofList (Text.decimal (m.cpu.x r).toInt)
    .done { m with console := m.console ++ text }
  | printCharacter r =>
    let c := Char.ofNat ((m.cpu.x r).setWidth 8).toNat
    .done { m with console := m.console.push c }

def runAll (m : Machine) : List Effect → Outcome TrapCause
  | [] => .done m
  | e :: rest => (e.run m).andThen (runAll · rest)

end Effect

def Service.scripted (number : Word) (name : String) (effects : List Effect) : Service where
  number := number
  name := name
  run := (Effect.runAll · effects)

end LegMachine
