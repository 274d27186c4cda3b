import LegMachine.Isa.Action
import LegMachine.Isa.Template
import LegMachine.Text.Blank

/-!
# Descriptors

A descriptor is one entry of an instruction catalog. Its sample shows how the instruction is
written, with a stand-in for every operand; the first word of the sample is the mnemonic.
-/

namespace LegMachine

/-- The family of an instruction's layout. -/
inductive Format where
  /-- Registers. -/
  | r
  /-- An immediate. -/
  | i
  /-- A jump. -/
  | j
  /-- A comparison with a branch. -/
  | iBranch
  deriving DecidableEq, Repr

namespace Format

def all : List Format := [r, i, j, iBranch]

def name : Format → String
  | r => "R"
  | i => "I"
  | j => "J"
  | iBranch => "IBranch"

def ofName? (name : String) : Option Format :=
  all.find? (·.name == name)

end Format

/-- One entry of a catalog. -/
structure Descriptor where
  sample : String
  description : String
  format : Format
  template : Template
  action : Action
  deriving DecidableEq, Repr

namespace Descriptor

/-- The first word of the sample, or all of it if it has none. -/
def mnemonic (d : Descriptor) : List Char :=
  (Text.firstWord? d.sample.toList).getD d.sample.toList

def fieldWidths (d : Descriptor) : List Nat :=
  match d.template.compile with
  | .ok e => e.fields.map Field.width
  | .error _ => []

end Descriptor

/-- ASCII letters in lower case, all else as it is. -/
def foldCase (text : List Char) : List Char :=
  text.map Char.toLower

/-- The entries with this mnemonic, in either case of ASCII letters. -/
def withMnemonic (catalog : List Descriptor) (name : List Char) : List Descriptor :=
  catalog.filter fun d => foldCase d.mnemonic == foldCase name

/-- The entries whose mnemonic begins so, in either case of ASCII letters. -/
def withMnemonicStart (catalog : List Descriptor) (start : List Char) : List Descriptor :=
  catalog.filter fun d => (foldCase start).isPrefixOf (foldCase d.mnemonic)

end LegMachine
