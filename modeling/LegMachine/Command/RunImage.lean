import LegMachine.Command.Parameters
import LegMachine.Command.Report
import LegMachine.Exec.Script
import LegMachine.Exec.Step
import LegMachine.Isa.Catalog
import LegMachine.Snapshot.State

/-!
# Running an image

The tool maps an image, runs it and prints the registers. Its configuration comes from a file, and
the command line overrides it. Three services are there: one prints an integer, one a character, and
one halts the machine.
-/

namespace LegMachine.Command

structure RunConfig where
  config : Config
  memorySize : Nat
  loadAddress : Word
  /-- Where to begin, if not at the load address. -/
  entry : Option Word
  maxSteps : Nat
  deriving DecidableEq, Repr

namespace RunConfig

def standard : RunConfig where
  config := ⟨false⟩
  memorySize := 16 * 1024 * 1024
  loadAddress := 0
  entry := none
  maxSteps := 10000000

/-- A field that may be left out. -/
def field {α : Type} (default : α) (read : Json → Option α) : Option Json → Option α
  | none => some default
  | some j => read j

/-- A configuration as a record in which every field may be left out. -/
def ofJson? (j : Json) : Option RunConfig := do
  match ← j.fields? ["cpu", "memory_size", "load_address", "entry", "max_steps"] with
  | [config, memorySize, loadAddress, entry, maxSteps] =>
    return {
      config := ← field standard.config Config.ofJson? config
      memorySize := ← field standard.memorySize (Json.toNat? 0xFFFFFFFFFFFFFFFF) memorySize
      loadAddress := ← field standard.loadAddress Json.toWord? loadAddress
      entry := ← field standard.entry
        (fun j => match j with
          | .null => some none
          | j => j.toWord?.map some) entry
      maxSteps := ← field standard.maxSteps (Json.toNat? 0xFFFFFFFFFFFFFFFF) maxSteps }
  | _ => none

end RunConfig

structure RunOptions where
  configPath : Option String
  entry : Option Word
  base : Option Word
  delayedBranching : Bool
  maxSteps : Option Nat
  imagePath : String
  deriving DecidableEq, Repr

namespace RunOptions

def paths (o : RunOptions) : List String := o.configPath.toList ++ [o.imagePath]

def configShape : Shape := .option "config" (some 'c') "CONFIG"
def entryShape : Shape := .option "entry" (some 'e') "ENTRY"
def baseShape : Shape := .option "base" (some 'b') "BASE"
def delayedShape : Shape := .flag "delayed-branching"
def maxStepsShape : Shape := .option "max-steps" none "MAX_STEPS"
def imageShape : Shape := .positional "BINFILE"

def parameters : List Parameter :=
  [⟨configShape, pathCheck⟩, ⟨entryShape, numberCheck Text.readWord⟩,
   ⟨baseShape, numberCheck Text.readWord⟩, ⟨delayedShape, noCheck⟩,
   ⟨maxStepsShape, numberCheck Text.readLong⟩, ⟨imageShape, pathCheck⟩]

/-- A number that was checked, if it was given. -/
def number? {α : Type} (r : Reading) (shape : Shape)
    (read : List Char → Except Text.NumberError α) : Option α :=
  (r.value? shape).bind fun v => (read v.toList).toOption

def ofArguments (args : List String) : Except UsageError RunOptions :=
  (Reading.line parameters args).map fun r =>
    { configPath := r.value? configShape
      entry := number? r entryShape Text.readWord
      base := number? r baseShape Text.readWord
      delayedBranching := (r.value? delayedShape).isSome
      maxSteps := number? r maxStepsShape Text.readLong
      imagePath := (r.value? imageShape).getD "" }

/-- The configuration with what the command line overrides. -/
def apply (o : RunOptions) (c : RunConfig) : RunConfig where
  config := ⟨c.config.delayedBranching || o.delayedBranching⟩
  memorySize := c.memorySize
  loadAddress := o.base.getD c.loadAddress
  entry := o.entry <|> c.entry
  maxSteps := o.maxSteps.getD c.maxSteps

end RunOptions

/-- The register that services take their argument from. -/
def argumentRegister : Register := ⟨0, by decide⟩

def standardServices : Registry :=
  .ofList
    [.scripted 1 "print_int" [.printInteger argumentRegister],
     .scripted 11 "print_char" [.printCharacter argumentRegister],
     .scripted 10 "exit" [.halt]]

def standardEnvironment : Environment :=
  ⟨instructionSet.decode?, standardServices⟩

/-- The machine before its first step. -/
def loadMachine (c : RunConfig) (image : List UInt8) : Except AddressError Machine :=
  ((Memory.zeroed c.memorySize c.loadAddress).place c.loadAddress image).map fun memory =>
    { cpu := (Processor.initial c.config).reset (c.entry.getD c.loadAddress)
      memory
      console := "" }

/-- The registers, four on a line. -/
def dumpRegisters (p : Processor) : List Char :=
  p.integers.toList.zipIdx.flatMap fun (v, k) =>
    'X' :: (Nat.toDigits 10 k).rightpad 2 ' ' ++ " = ".toList ++ Text.hexWord v ++
      if k % 4 = 3 then ['\n'] else [' ', ' ']

/-- The registers, the program counter and the flags. -/
def dump (p : Processor) : String :=
  String.ofList (dumpRegisters p ++ "PC  = ".toList ++ Text.hexWord p.pc ++ "  flags = ".toList ++
    p.flags.report ++ ['\n'])

def reportRun (r : Run) : Report :=
  match r.ending with
  | .trapped trap =>
    ⟨0, r.machine.console, "TRAP: " ++ trap.message ++ "\n" ++ dump r.machine.cpu, none⟩
  | .fault _ => .ofFault r.machine.console
  | _ => ⟨0, r.machine.console, dump r.machine.cpu, none⟩

def readConfig (files : Files) (o : RunOptions) : Except Failure RunConfig :=
  match o.configPath with
  | none => .ok RunConfig.standard
  | some path =>
    match readTextFile files path with
    | .error e => .error e
    | .ok text =>
      match (Json.read text.toList).bind RunConfig.ofJson? with
      | some c => .ok c
      | none => .error ⟨"parsing " ++ path, some "no run configuration"⟩

def runImage (files : Files) (o : RunOptions) : Except Failure Report :=
  match readConfig files o with
  | .error e => .error e
  | .ok c =>
    let c := o.apply c
    match readFile files o.imagePath with
    | .error e => .error e
    | .ok image =>
      match loadMachine c image.toList with
      | .error e => .error ⟨e.message, none⟩
      | .ok m => .ok (reportRun (run standardEnvironment c.maxSteps m))

/-- The tool that runs an image. -/
def runTool (files : Files) (args : List String) : Report :=
  match RunOptions.ofArguments args with
  | .error e => .ofUsage e.message
  | .ok o =>
    match runImage files o with
    | .ok report => report
    | .error f => .ofFailure f

end LegMachine.Command
