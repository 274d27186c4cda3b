import LegMachine.Command.Parameters
import LegMachine.Command.Report
import LegMachine.Disasm.Listing
import LegMachine.Isa.Catalog
import LegMachine.Text.Blank

/-!
# Listing an image

The tool maps an image and lists its segments or a range of its words, or it lists the table of
opcodes, for which it needs no image. A range is checked before the image is read.
-/

namespace LegMachine.Command

inductive OutputFormat where
  | text
  | json
  deriving DecidableEq, Repr

structure RangeOptions where
  start : Word
  stop : Word
  showBytes : Bool
  format : OutputFormat
  outPath : Option String
  deriving DecidableEq, Repr

inductive ListCommand where
  | sections
  | range (o : RangeOptions)
  | opcodes
  deriving DecidableEq, Repr

structure ListOptions where
  base : Word
  skip : Nat
  length : Option Nat
  imagePath : String
  command : ListCommand
  deriving DecidableEq, Repr

/-- The files that a listing reads. -/
def ListOptions.paths (o : ListOptions) : List String := [o.imagePath]

/-- Read a word with blanks around it. -/
def readSpacedWord (text : List Char) : Except Text.NumberError Word :=
  Text.readWord (Text.trim text)

namespace RangeOptions

def startShape : Shape := .positional "START"
def stopShape : Shape := .positional "END"
def showBytesShape : Shape := .flag "show-bytes"
def formatShape : Shape := .option "format" none "FORMAT"
def outShape : Shape := .option "out" none "FILE"

def parameters : List Parameter :=
  [⟨startShape, numberCheck readSpacedWord⟩, ⟨stopShape, numberCheck readSpacedWord⟩,
   ⟨showBytesShape, noCheck⟩, ⟨formatShape, choiceCheck ["text", "json"]⟩, ⟨outShape, pathCheck⟩]

/-- A word that was checked. -/
def wordOf (r : Reading) (shape : Shape) : Word :=
  ((r.value? shape).bind fun v => (readSpacedWord v.toList).toOption).getD 0

def ofArguments (args : List String) : Except UsageError RangeOptions :=
  (Reading.line parameters args).map fun r =>
    { start := wordOf r startShape
      stop := wordOf r stopShape
      showBytes := (r.value? showBytesShape).isSome
      format := if r.value? formatShape = some "json" then .json else .text
      outPath := r.value? outShape }

end RangeOptions

def ListCommand.ofArguments (name : String) (args : List String) :
    Except UsageError ListCommand :=
  if name = "range" then (RangeOptions.ofArguments args).map .range
  else (Reading.line [] args).map fun _ => if name = "sections" then .sections else .opcodes

namespace ListOptions

def baseShape : Shape := .option "base" none "BASE"
def skipShape : Shape := .option "skip" none "SKIP"
def lengthShape : Shape := .option "len" none "LEN"
def imageShape : Shape := .positional "BINFILE"

def parameters : List Parameter :=
  [⟨baseShape, numberCheck readSpacedWord⟩, ⟨skipShape, numberCheck Text.readLong⟩,
   ⟨lengthShape, numberCheck Text.readLong⟩, ⟨imageShape, pathCheck⟩]

def subcommands : List String := ["sections", "range", "opcodes", "help"]

def about : String := "LEGv8 disassembler CLI"

/-- A length that was checked. -/
def length? (r : Reading) (shape : Shape) : Option Nat :=
  (r.value? shape).bind fun v => (Text.readLong v.toList).toOption

def ofReading (r : Reading) (command : ListCommand) : ListOptions where
  base := RangeOptions.wordOf r baseShape
  skip := (length? r skipShape).getD 0
  length := length? r lengthShape
  imagePath := (r.value? imageShape).getD ""
  command := command

/-- What a line without a subcommand lacks. -/
def withoutCommand (r : Reading) : UsageError :=
  match r.settle with
  | .error e => e
  | .ok r =>
    if r.given.isEmpty then .nothingGiven about
    else .missingSubcommand "legv8-disasm"

/-- Read the options and the subcommand. What is wrong behind the name of the subcommand comes
before what is still to be checked in front of it. -/
def ofArguments (args : List String) : Except UsageError ListOptions :=
  match Reading.arguments parameters subcommands (Reading.start parameters) args with
  | .error e => .error e
  | .ok (r, none) => .error (withoutCommand r)
  | .ok (_, some ("help", _)) => .error (.nothingGiven about)
  | .ok (r, some (name, rest)) =>
    match ListCommand.ofArguments name rest with
    | .error e => .error e
    | .ok command => r.finish.map (ofReading · command)

end ListOptions

def loadImage (files : Files) (path : String) (base : Word) (skip : Nat) (length : Option Nat) :
    Except Failure Image :=
  match readFile files path with
  | .error e => .error e
  | .ok content =>
    match Image.ofFile content base skip length with
    | .ok image => .ok image
    | .error (.headerTooLong skip) =>
      .error ⟨"header of " ++ String.ofList (Text.decimal skip) ++ " bytes is longer than " ++ path,
        none⟩
    | .error (.tooFewBytes wanted left) =>
      .error ⟨String.ofList (Text.decimal wanted) ++ " bytes requested, " ++
        String.ofList (Text.decimal left) ++ " left after the header", none⟩

def RangeOptions.render (o : RangeOptions) (image : Image) : Except Fault String :=
  (Listing.disassemble instructionSet.decode? image o.start o.stop).map fun lines =>
    match o.format with
    | .text => Listing.render o.showBytes lines
    | .json => Listing.renderJson lines ++ "\n"

def listImage (files : Files) (o : ListOptions) : Except Failure Report :=
  match o.command with
  | .sections =>
    (loadImage files o.imagePath o.base o.skip o.length).map fun image =>
      .ofOutput (Listing.renderSegments image)
  | .range range =>
    if range.stop < range.start then .error ⟨"end must be >= start", none⟩
    else (loadImage files o.imagePath o.base o.skip o.length).map fun image =>
      match range.render image, range.outPath with
      | .error _, _ => .ofFault ""
      | .ok text, some path => ⟨0, "", "", some (path, text)⟩
      | .ok text, none => .ofOutput text
  | .opcodes => .ok (.ofOutput (Listing.renderRows instructionSet.table.rows))

/-- The tool that lists an image. -/
def listTool (files : Files) (args : List String) : Report :=
  match ListOptions.ofArguments args with
  | .error e => .ofUsage e.message
  | .ok o =>
    match listImage files o with
    | .ok report => report
    | .error f => .ofFailure f

end LegMachine.Command
