import LegMachine.Json.Basic

/-!
# Writing JSON

The compact form has no blanks; the indented form puts every item and member on a line of its own. A
value that the reader keeps only in part is written so that it is read as it is: a number without an
integer value as a negative zero, a string without a text as half of a surrogate pair.
-/

namespace LegMachine.Json

def escape (c : Char) : List Char :=
  if c = '"' then ['\\', '"']
  else if c = '\\' then ['\\', '\\']
  else if c = '\x08' then ['\\', 'b']
  else if c = '\x0c' then ['\\', 'f']
  else if c = '\n' then ['\\', 'n']
  else if c = '\r' then ['\\', 'r']
  else if c = '\t' then ['\\', 't']
  else if c.toNat < 0x20 then ['\\', 'u'] ++ (Nat.toDigits 16 c.toNat).leftpad 4 '0'
  else [c]

/-- A string that denotes a text, or none. -/
def writeText : Option (List Char) → List Char
  | some text => '"' :: text.flatMap escape ++ ['"']
  | none => ['"', '\\', 'u', 'd', '8', '0', '0', '"']

/-- A number that has an integer value, or none. -/
def writeNumber : Option Int → List Char
  | some v => if v < 0 then '-' :: Nat.toDigits 10 v.natAbs else Nat.toDigits 10 v.natAbs
  | none => ['-', '0']

mutual

/-- The compact form of a value. -/
def write : Json → List Char
  | null => ['n', 'u', 'l', 'l']
  | bool true => ['t', 'r', 'u', 'e']
  | bool false => ['f', 'a', 'l', 's', 'e']
  | number v => writeNumber v
  | string t => writeText t
  | array [] => ['[', ']']
  | array (item :: rest) => '[' :: write item ++ writeItems rest
  | object [] => ['{', '}']
  | object ((k, v) :: rest) => '{' :: writeText k ++ ':' :: write v ++ writeMembers rest

/-- The items behind the first one, up to the end of the array. -/
def writeItems : List Json → List Char
  | [] => [']']
  | item :: rest => ',' :: write item ++ writeItems rest

def writeMembers : List (Option (List Char) × Json) → List Char
  | [] => ['}']
  | (k, v) :: rest => ',' :: writeText k ++ ':' :: write v ++ writeMembers rest

end

/-- A new line at some depth, two blanks for each level. -/
def newLine (depth : Nat) : List Char :=
  '\n' :: List.replicate (2 * depth) ' '

mutual

/-- The indented form of a value. -/
def writeIndented (depth : Nat) : Json → List Char
  | array [] => ['[', ']']
  | array (item :: rest) =>
    '[' :: newLine (depth + 1) ++ writeIndented (depth + 1) item ++ indentedItems depth rest
  | object [] => ['{', '}']
  | object ((k, v) :: rest) =>
    '{' :: newLine (depth + 1) ++ writeText k ++ ':' :: ' ' :: writeIndented (depth + 1) v ++
      indentedMembers depth rest
  | null => write null
  | bool b => write (bool b)
  | number v => write (number v)
  | string t => write (string t)

def indentedItems (depth : Nat) : List Json → List Char
  | [] => newLine depth ++ [']']
  | item :: rest =>
    ',' :: newLine (depth + 1) ++ writeIndented (depth + 1) item ++ indentedItems depth rest

def indentedMembers (depth : Nat) : List (Option (List Char) × Json) → List Char
  | [] => newLine depth ++ ['}']
  | (k, v) :: rest =>
    ',' :: newLine (depth + 1) ++ writeText k ++ ':' :: ' ' :: writeIndented (depth + 1) v ++
      indentedMembers depth rest

end

end LegMachine.Json
