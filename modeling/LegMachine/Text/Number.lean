import LegMachine.Word

/-!
# Numbers as text

Words are written as `0x` and eight hexadecimal digits, or as few digits as the value needs;
integers in decimal. Unsigned numbers are read in a base up to a limit: a plus sign may stand in
front, there is at least one digit, and the first character that is no digit or takes the value past
the limit decides which error is reported.
-/

namespace LegMachine.Text

/-- `0x` and exactly eight hexadecimal digits. -/
def hexWord (w : Word) : List Char :=
  '0' :: 'x' :: (Nat.toDigits 16 w.toNat).leftpad 8 '0'

/-- `0x` and as many hexadecimal digits as the value needs. -/
def hexShort (w : Word) : List Char :=
  '0' :: 'x' :: Nat.toDigits 16 w.toNat

def hexByte (b : UInt8) : List Char :=
  (Nat.toDigits 16 b.toNat).leftpad 2 '0'

def decimal (z : Int) : List Char :=
  if z < 0 then '-' :: Nat.toDigits 10 z.natAbs else Nat.toDigits 10 z.natAbs

/-- The value of a digit or letter, below `base`. -/
def digitValue? (base : Nat) (c : Char) : Option Nat :=
  let value :=
    if '0' ≤ c ∧ c ≤ '9' then c.toNat - '0'.toNat
    else if 'a' ≤ c ∧ c ≤ 'z' then c.toNat - 'a'.toNat + 10
    else if 'A' ≤ c ∧ c ≤ 'Z' then c.toNat - 'A'.toNat + 10
    else base
  if value < base then some value else none

inductive NumberError where
  | empty
  | invalidDigit
  | tooLarge
  deriving DecidableEq, Repr

def NumberError.message : NumberError → String
  | .empty => "cannot parse integer from empty string"
  | .invalidDigit => "invalid digit found in string"
  | .tooLarge => "number too large to fit in target type"

/-- Read digits behind a number that has the value `value` so far. -/
def readDigits (base limit : Nat) : Nat → List Char → Except NumberError Nat
  | value, [] => .ok value
  | value, c :: rest =>
    match digitValue? base c with
    | none => .error .invalidDigit
    | some d =>
      if base * value + d ≤ limit then readDigits base limit (base * value + d) rest
      else .error .tooLarge

/-- Read an unsigned number of at most `limit`. -/
def readUnsigned (base limit : Nat) : List Char → Except NumberError Nat
  | [] => .error .empty
  | ['+'] => .error .invalidDigit
  | '+' :: digits => readDigits base limit 0 digits
  | digits => readDigits base limit 0 digits

/-- Read a word: hexadecimal behind `0x` or `0X`, decimal otherwise. -/
def readWord (text : List Char) : Except NumberError Word :=
  (match text with
    | '0' :: 'x' :: digits => readUnsigned 16 0xFFFFFFFF digits
    | '0' :: 'X' :: digits => readUnsigned 16 0xFFFFFFFF digits
    | digits => readUnsigned 10 0xFFFFFFFF digits).map (BitVec.ofNat 32)

def readLong (text : List Char) : Except NumberError Nat :=
  readUnsigned 10 0xFFFFFFFFFFFFFFFF text

end LegMachine.Text
