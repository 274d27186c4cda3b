/-!
# Reports

What a tool leaves behind: its exit code, what it prints, and the file that it writes. A tool is a
function of its arguments and of the files that it can see.
-/

namespace LegMachine.Command

inductive FileError where
  | notFound
  | isDirectory
  | notText
  | other (reason : String)
  deriving DecidableEq, Repr

def FileError.message : FileError → String
  | notFound => "No such file or directory (os error 2)"
  | isDirectory => "Is a directory (os error 21)"
  | notText => "stream did not contain valid UTF-8"
  | other reason => reason

/-- The contents of the files that a tool can see, by path. -/
abbrev Files := String → Except FileError ByteArray

/-- Why a tool gives up, and what lies behind that. -/
structure Failure where
  message : String
  cause : Option String
  deriving DecidableEq, Repr

/-- The message with its cause on one line. -/
def Failure.chain (f : Failure) : String :=
  match f.cause with
  | none => f.message
  | some cause => f.message ++ ": " ++ cause

structure Report where
  code : Nat
  stdout : String
  stderr : String
  /-- A file with its path and new content. -/
  file : Option (String × String)
  deriving DecidableEq, Repr

namespace Report

def ofFailure (f : Failure) : Report where
  code := 1
  stdout := ""
  stderr := match f.cause with
    | none => "Error: " ++ f.message ++ "\n"
    | some cause => "Error: " ++ f.message ++ "\n\nCaused by:\n    " ++ cause ++ "\n"
  file := none

def ofOutput (text : String) : Report := ⟨0, text, "", none⟩

/-- A tool that a fault breaks off, behind what it has printed. -/
def ofFault (printed : String) : Report := ⟨101, printed, "", none⟩

def ofUsage (text : String) : Report := ⟨2, "", text ++ "\n", none⟩

/-- The report instead of one whose file cannot be written. -/
def refused (e : FileError) : Report := ofFailure ⟨e.message, none⟩

end Report

def readFile (files : Files) (path : String) : Except Failure ByteArray :=
  match files path with
  | .ok content => .ok content
  | .error e => .error ⟨"reading " ++ path, some e.message⟩

def readTextFile (files : Files) (path : String) : Except Failure String :=
  match readFile files path with
  | .error e => .error e
  | .ok content =>
    match String.fromUTF8? content with
    | some text => .ok text
    | none => .error ⟨"reading " ++ path, some FileError.notText.message⟩

end LegMachine.Command
