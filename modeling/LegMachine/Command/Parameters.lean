import LegMachine.Command.Likeness
import LegMachine.Text.Number

/-!
# Command lines

A tool declares its parameters: options with a value, flags, and positional parameters, which are
taken in order. Behind `--` every argument is positional. An option takes the next argument as its
value, unless that begins with a dash, or the text attached to it by an equals sign. A value is
checked only when the next parameter begins or the line ends. A tool with subcommands hands the rest
of the line over to the first argument that names one and is no option's value.
-/

namespace LegMachine.Command

inductive Complaint where
  /-- An empty value counts as none. -/
  | missing
  /-- None of a few fixed values. -/
  | notAChoice
  | malformed (reason : String)
  deriving DecidableEq, Repr

/-- How a parameter is given. -/
inductive Shape where
  | option (long : String) (short : Option Char) (valueName : String)
  | flag (long : String)
  | positional (valueName : String)
  deriving DecidableEq, Repr

def Shape.message : Shape → String
  | option long _ valueName => "--" ++ long ++ " <" ++ valueName ++ ">"
  | flag long => "--" ++ long
  | positional valueName => "<" ++ valueName ++ ">"

/-- A parameter of a tool, with the check on its values. -/
structure Parameter where
  shape : Shape
  check : String → Option Complaint

namespace Parameter

def isPositional (p : Parameter) : Bool :=
  match p.shape with
  | .positional _ => true
  | _ => false

def isFlag (p : Parameter) : Bool :=
  match p.shape with
  | .flag _ => true
  | _ => false

def hasLong (name : String) (p : Parameter) : Bool :=
  match p.shape with
  | .option long _ _ => long == name
  | .flag long => long == name
  | .positional _ => false

def hasShort (c : Char) (p : Parameter) : Bool :=
  match p.shape with
  | .option _ short _ => short == some c
  | _ => false

end Parameter

inductive UsageError where
  | unexpectedArgument (argument : String)
  | unexpectedValue (value : String) (shape : Shape)
  | badValue (value : String) (shape : Shape) (complaint : Complaint)
  | missingValue (shape : Shape)
  | repeated (shape : Shape)
  | missingParameters
  | missingSubcommand (tool : String)
  | unknownSubcommand (name : String)
  /-- Nothing was asked for; the tool says what it is. -/
  | nothingGiven (about : String)
  deriving DecidableEq, Repr

def UsageError.message : UsageError → String
  | unexpectedArgument a => "error: unexpected argument '" ++ a ++ "' found"
  | unexpectedValue v s =>
    "error: unexpected value '" ++ v ++ "' for '" ++ s.message ++ "' found; no more were expected"
  | badValue v s (.malformed reason) =>
    "error: invalid value '" ++ v ++ "' for '" ++ s.message ++ "': " ++ reason
  | badValue v s .notAChoice =>
    if v.isEmpty then
      "error: a value is required for '" ++ s.message ++ "' but none was supplied"
    else "error: invalid value '" ++ v ++ "' for '" ++ s.message ++ "'"
  | badValue _ s .missing =>
    "error: a value is required for '" ++ s.message ++ "' but none was supplied"
  | missingValue s =>
    "error: a value is required for '" ++ s.message ++ "' but none was supplied"
  | repeated s => "error: the argument '" ++ s.message ++ "' cannot be used multiple times"
  | missingParameters => "error: the following required arguments were not provided:"
  | missingSubcommand tool =>
    "error: '" ++ tool ++ "' requires a subcommand but one was not provided"
  | unknownSubcommand name => "error: unrecognized subcommand '" ++ name ++ "'"
  | nothingGiven about => about

/-- What has been read of a command line. -/
structure Reading where
  /-- The parameters given, with the values that were checked. -/
  given : List (Shape × String)
  /-- A parameter whose value has not been checked, or has yet to come. -/
  pending : Option (Parameter × Option String)
  /-- The positional parameters still to come. -/
  expected : List Parameter
  /-- Only positional parameters follow. -/
  plain : Bool

namespace Reading

def start (parameters : List Parameter) : Reading :=
  ⟨[], none, parameters.filter (·.isPositional), false⟩

def value? (r : Reading) (shape : Shape) : Option String :=
  (r.given.find? (·.1 == shape)).map (·.2)

def take (r : Reading) (p : Parameter) (value : String) : Except UsageError Reading :=
  if (r.value? p.shape).isSome then .error (.repeated p.shape)
  else match p.check value with
    | some complaint => .error (.badValue value p.shape complaint)
    | none => .ok { r with given := (p.shape, value) :: r.given }

/-- Take the parameter that is pending. -/
def settle (r : Reading) : Except UsageError Reading :=
  match r.pending with
  | none => .ok r
  | some (p, none) => .error (.missingValue p.shape)
  | some (p, some value) => { r with pending := none }.take p value

/-- Take a parameter whose value is attached to it. -/
def attach (r : Reading) (p : Parameter) (value : String) : Except UsageError Reading :=
  match r.settle with
  | .error e => .error e
  | .ok r => r.take p value

/-- Begin a parameter whose value is checked later. -/
def await (r : Reading) (p : Parameter) (value : Option String) : Except UsageError Reading :=
  match r.settle with
  | .error e => .error e
  | .ok r => .ok { r with pending := some (p, value) }

/-- Whether an option waits for its value. -/
def isWaiting (r : Reading) : Bool :=
  match r.pending with
  | some (_, none) => true
  | _ => false

/-- Read an argument that begins with two dashes. -/
def long (parameters : List Parameter) (r : Reading) (argument : List Char) :
    Except UsageError Reading :=
  let name := String.ofList (argument.takeWhile (· != '='))
  let attached := match argument.dropWhile (· != '=') with
    | [] => none
    | _ :: value => some (String.ofList value)
  match parameters.find? (·.hasLong name) with
  | none => .error (.unexpectedArgument ("--" ++ name))
  | some p =>
    match attached with
    | some value =>
      if p.isFlag then .error (.unexpectedValue value p.shape) else r.attach p value
    | none => if p.isFlag then r.attach p "true" else r.await p none

/-- Read an argument that begins with one dash. -/
def short (parameters : List Parameter) (r : Reading) (letter : Char) (rest : List Char) :
    Except UsageError Reading :=
  match parameters.find? (·.hasShort letter) with
  | none => .error (.unexpectedArgument (String.ofList ['-', letter]))
  | some p =>
    match rest with
    | [] => r.await p none
    | '=' :: value => r.attach p (String.ofList value)
    | value => r.attach p (String.ofList value)

/-- Read a positional argument. One that is not expected counts as the misspelt name of a subcommand
if it is like one without being one. -/
def positional (subcommands : List String) (r : Reading) (argument : String) :
    Except UsageError Reading :=
  match r.expected with
  | p :: expected => { r with expected }.await p (some argument)
  | [] =>
    if !subcommands.contains argument && subcommands.any (areAlike argument) then
      .error (.unknownSubcommand argument)
    else .error (.unexpectedArgument argument)

def argument (parameters : List Parameter) (subcommands : List String) (r : Reading)
    (text : String) : Except UsageError Reading :=
  if r.plain then r.positional subcommands text
  else match text.toList with
    | ['-', '-'] => .ok { r with plain := true }
    | '-' :: '-' :: rest => r.long parameters rest
    | '-' :: letter :: rest => r.short parameters letter rest
    | _ =>
      match r.pending with
      | some (p, none) => .ok { r with pending := some (p, some text) }
      | _ => r.positional subcommands text

/-- Read a line up to its end or to a subcommand; the latter comes with the rest of the line. -/
def arguments (parameters : List Parameter) (subcommands : List String) :
    Reading → List String → Except UsageError (Reading × Option (String × List String))
  | r, [] => .ok (r, none)
  | r, text :: rest =>
    if !r.plain && !r.isWaiting && subcommands.contains text then .ok (r, some (text, rest))
    else match r.argument parameters subcommands text with
      | .error e => .error e
      | .ok r => arguments parameters subcommands r rest

/-- Check the last value and that no positional parameter is left. -/
def finish (r : Reading) : Except UsageError Reading :=
  match r.settle with
  | .error e => .error e
  | .ok r => if r.expected.isEmpty then .ok r else .error .missingParameters

/-- Read a line without subcommands. -/
def line (parameters : List Parameter) (args : List String) : Except UsageError Reading :=
  match arguments parameters [] (start parameters) args with
  | .error e => .error e
  | .ok (r, _) => r.finish

end Reading

/-! ## Kinds of values -/

def numberCheck {α : Type} (read : List Char → Except Text.NumberError α) (value : String) :
    Option Complaint :=
  match read value.toList with
  | .ok _ => none
  | .error e => some (.malformed e.message)

def pathCheck (value : String) : Option Complaint :=
  if value.isEmpty then some .missing else none

def choiceCheck (choices : List String) (value : String) : Option Complaint :=
  if choices.contains value then none else some .notAChoice

def noCheck (_ : String) : Option Complaint := none

end LegMachine.Command
