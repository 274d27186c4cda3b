import LegMachine.Json.Basic
import LegMachine.Text.Number

/-!
# Reading JSON

A text is read as one value with blanks around it. Every reader takes a text and gives what it has
read with the rest of the text. Values nest, so their reader is bounded; the bound that `read` gives
it, twice the length of the text, is never met.
-/

namespace LegMachine.Json

/-- The blanks of JSON. -/
def isBlank (c : Char) : Bool :=
  c == ' ' || c == '\t' || c == '\n' || c == '\r'

def skipBlanks (text : List Char) : List Char :=
  text.dropWhile isBlank

/-- What a string is made of: characters, and code units of 16 bits written as escapes. -/
inductive StringUnit where
  | char (c : Char)
  | code (n : Nat)
  deriving DecidableEq, Repr

def codeUnit? (a b c d : Char) : Option StringUnit :=
  match Text.digitValue? 16 a, Text.digitValue? 16 b, Text.digitValue? 16 c,
      Text.digitValue? 16 d with
  | some a, some b, some c, some d => some (.code (4096 * a + 256 * b + 16 * c + d))
  | _, _, _, _ => none

/-- The character that one letter behind a backslash stands for. -/
def escaped? : Char → Option StringUnit
  | '"' => some (.char '"')
  | '\\' => some (.char '\\')
  | '/' => some (.char '/')
  | 'b' => some (.char '\x08')
  | 'f' => some (.char '\x0c')
  | 'n' => some (.char '\n')
  | 'r' => some (.char '\r')
  | 't' => some (.char '\t')
  | _ => none

def readUnits : List Char → Option (List StringUnit × List Char)
  | [] => none
  | '"' :: rest => some ([], rest)
  | '\\' :: 'u' :: a :: b :: c :: d :: rest => do
    let unit ← codeUnit? a b c d
    let (units, rest) ← readUnits rest
    return (unit :: units, rest)
  | '\\' :: c :: rest => do
    let unit ← escaped? c
    let (units, rest) ← readUnits rest
    return (unit :: units, rest)
  | c :: rest =>
    if c.toNat < 0x20 || c == '\\' then none
    else do
      let (units, rest) ← readUnits rest
      return (.char c :: units, rest)

/-- Whether a code unit is the first or the second half of a surrogate pair. -/
def isFirstHalf (n : Nat) : Bool := 0xD800 ≤ n && n < 0xDC00
def isSecondHalf (n : Nat) : Bool := 0xDC00 ≤ n && n < 0xE000

/-- The text that some units denote, unless a half of a pair stands alone. -/
def textOfUnits? : List StringUnit → Option (List Char)
  | [] => some []
  | .char c :: rest => (textOfUnits? rest).map (c :: ·)
  | .code n :: .code k :: rest =>
    if isFirstHalf n then
      if isSecondHalf k then
        (textOfUnits? rest).map
          (Char.ofNat (0x10000 + 1024 * (n - 0xD800) + (k - 0xDC00)) :: ·)
      else none
    else if isSecondHalf n then none
    else (textOfUnits? (.code k :: rest)).map (Char.ofNat n :: ·)
  | .code n :: rest =>
    if isFirstHalf n || isSecondHalf n then none
    else (textOfUnits? rest).map (Char.ofNat n :: ·)

def readString (text : List Char) : Option (Option (List Char) × List Char) :=
  (readUnits text).map fun (units, rest) => (textOfUnits? units, rest)

/-- A run of digits, at least one. -/
def readDigits (text : List Char) : Option (Nat × List Char) :=
  let digits := text.takeWhile Char.isDigit
  if digits.isEmpty then none
  else
    let value := digits.foldl (fun n c => 10 * n + (c.toNat - '0'.toNat)) 0
    some (value, text.dropWhile Char.isDigit)

/-- The whole part of a number: zero, or digits that do not begin with it. -/
def readWhole : List Char → Option (Nat × List Char)
  | '0' :: rest => some (0, rest)
  | text => readDigits text

/-- Whether a fraction follows, and the text behind it. -/
def readFraction : List Char → Option (Bool × List Char)
  | '.' :: rest => (readDigits rest).map fun (_, rest) => (true, rest)
  | text => some (false, text)

def readExponentDigits : List Char → Option (Bool × List Char)
  | '+' :: rest => (readDigits rest).map fun (_, rest) => (true, rest)
  | '-' :: rest => (readDigits rest).map fun (_, rest) => (true, rest)
  | text => (readDigits text).map fun (_, rest) => (true, rest)

def readExponent : List Char → Option (Bool × List Char)
  | 'e' :: rest => readExponentDigits rest
  | 'E' :: rest => readExponentDigits rest
  | text => some (false, text)

/-- A number without its sign. -/
def readUnsigned (negative : Bool) (text : List Char) : Option (Json × List Char) := do
  let (whole, rest) ← readWhole text
  let (hasFraction, rest) ← readFraction rest
  let (hasExponent, rest) ← readExponent rest
  let value :=
    if hasFraction || hasExponent || (negative && whole == 0) then none
    else some (if negative then -(whole : Int) else whole)
  return (number value, rest)

/-- A value that is neither an array nor an object. -/
def readScalar : List Char → Option (Json × List Char)
  | 'n' :: 'u' :: 'l' :: 'l' :: rest => some (null, rest)
  | 't' :: 'r' :: 'u' :: 'e' :: rest => some (bool true, rest)
  | 'f' :: 'a' :: 'l' :: 's' :: 'e' :: rest => some (bool false, rest)
  | '"' :: rest => (readString rest).map fun (t, rest) => (string t, rest)
  | '-' :: rest => readUnsigned true rest
  | text => readUnsigned false text

mutual

/-- A value with the blanks in front of it. -/
def readValue : Nat → List Char → Option (Json × List Char)
  | 0, _ => none
  | bound + 1, text =>
    match skipBlanks text with
    | '[' :: rest =>
      match skipBlanks rest with
      | ']' :: rest => some (array [], rest)
      | rest => (readItems bound rest).map fun (items, rest) => (array items, rest)
    | '{' :: rest =>
      match skipBlanks rest with
      | '}' :: rest => some (object [], rest)
      | rest => (readMembers bound rest).map fun (members, rest) => (object members, rest)
    | text => readScalar text

def readItems : Nat → List Char → Option (List Json × List Char)
  | 0, _ => none
  | bound + 1, text => do
    let (item, rest) ← readValue bound text
    match skipBlanks rest with
    | ',' :: rest => do
      let (items, rest) ← readItems bound rest
      return (item :: items, rest)
    | ']' :: rest => return ([item], rest)
    | _ => none

def readMembers : Nat → List Char → Option (List (Option (List Char) × Json) × List Char)
  | 0, _ => none
  | bound + 1, text =>
    match skipBlanks text with
    | '"' :: rest => do
      let (key, rest) ← readString rest
      match skipBlanks rest with
      | ':' :: rest => do
        let (value, rest) ← readValue bound rest
        match skipBlanks rest with
        | ',' :: rest => do
          let (members, rest) ← readMembers bound rest
          return ((key, value) :: members, rest)
        | '}' :: rest => return ([(key, value)], rest)
        | _ => none
      | _ => none
    | _ => none

end

/-- Read a text that is one value. -/
def read (text : List Char) : Option Json :=
  match readValue (2 * text.length + 2) text with
  | some (value, rest) => if (skipBlanks rest).isEmpty then some value else none
  | none => none

end LegMachine.Json
