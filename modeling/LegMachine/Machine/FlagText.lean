import LegMachine.Machine.Flags
import LegMachine.Text.Blank
import LegMachine.Text.Number

/-!
# Flags as text

The names of the flags that are set stand in the order N, Z, C, V, then the spare bits that are set,
as a hexadecimal number; bars part them. Such a text may also name a flag twice or out of order, and
give any bits as a number. A blank text names no flags.
-/

namespace LegMachine.Flags

def named : List (List Char × BitVec 8) :=
  [(['N'], 8), (['Z'], 4), (['C'], 2), (['V'], 1)]

def parts (f : Flags) : List (List Char) :=
  (named.filter fun (_, bit) => f.bits &&& bit != 0).map (·.1) ++
    if f.spare = 0 then [] else ['0' :: 'x' :: Nat.toDigits 16 f.spare.toNat]

def toText (f : Flags) : List Char :=
  [' ', '|', ' '].intercalate f.parts

/-- The bits that one part of a text names. -/
def partBits? : List Char → Option (BitVec 8)
  | '0' :: 'x' :: digits =>
    match Text.readUnsigned 16 255 digits with
    | .ok n => some (BitVec.ofNat 8 n)
    | .error _ => none
  | name => (named.find? (·.1 == name)).map (·.2)

def ofText? (text : List Char) : Option Flags :=
  if (Text.trim text).isEmpty then some .clear
  else ((Text.splitAt '|' text).mapM fun part => partBits? (Text.trim part)).map fun bits =>
    ⟨bits.foldl (· ||| ·) 0⟩

/-- Flags as they stand in a report. -/
def report (f : Flags) : List Char :=
  "Flags(".toList ++ (if f.parts.isEmpty then ['0', 'x', '0'] else f.toText) ++ [')']

end LegMachine.Flags
