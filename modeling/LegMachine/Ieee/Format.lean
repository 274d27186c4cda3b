import LegMachine.Word

/-!
# Binary floating-point formats

A format has a sign bit, an exponent field and a fraction field. Every finite number of a format is
a whole number of units, the unit being its least positive number, so that arithmetic on numbers is
arithmetic on integers. `Datum.ofBits` reads a bit pattern and `magnitude` rounds a quotient of
units to the nearest pattern, a tie to the even one.
-/

namespace LegMachine.Ieee

/-- The widths of the exponent and fraction fields. -/
structure Format where
  exponentBits : Nat
  fractionBits : Nat
  deriving DecidableEq, Repr

namespace Format

def single : Format := ⟨8, 23⟩

def double : Format := ⟨11, 52⟩

def signBit (f : Format) : Nat := 2 ^ (f.exponentBits + f.fractionBits)

/-- The pattern of infinity: all bits of the exponent, none of the fraction. -/
def infinity (f : Format) : Nat := (2 ^ f.exponentBits - 1) * 2 ^ f.fractionBits

/-- The pattern that every result without a value has: infinity with the first bit of the fraction.
-/
def canonicalNaN (f : Format) : Nat := f.infinity + 2 ^ (f.fractionBits - 1)

/-- The unit is two to the power of minus `scale`. -/
def scale (f : Format) : Nat := 2 ^ (f.exponentBits - 1) - 2 + f.fractionBits

end Format

inductive Datum where
  | nan
  | infinite (negative : Bool)
  /-- A number of units, with a sign also for zero. -/
  | finite (negative : Bool) (units : Nat)
  deriving DecidableEq, Repr

namespace Datum

def ofBits (f : Format) (pattern : Nat) : Datum :=
  let negative := pattern / f.signBit % 2 == 1
  let exponent := pattern / 2 ^ f.fractionBits % 2 ^ f.exponentBits
  let fraction := pattern % 2 ^ f.fractionBits
  if exponent = 2 ^ f.exponentBits - 1 then
    if fraction = 0 then infinite negative else nan
  else if exponent = 0 then finite negative fraction
  else finite negative ((2 ^ f.fractionBits + fraction) * 2 ^ (exponent - 1))

def isNaN : Datum → Bool
  | nan => true
  | _ => false

def signedUnits (negative : Bool) (units : Nat) : Int :=
  if negative then -units else units

end Datum

/-- The whole number nearest to `n / d`, of two the even one. -/
def roundHalfEven (n d : Nat) : Nat :=
  let q := n / d
  let r := n % d
  if 2 * r < d ∨ (2 * r = d ∧ q % 2 = 0) then q else q + 1

/-- The pattern without sign that is nearest to `n / d` units. With `k` bits more before the point
than a fraction holds, patterns lie `2 ^ k` units apart. -/
def magnitude (f : Format) (n d : Nat) : Nat :=
  let k := (n / d).log2 - f.fractionBits
  min (k * 2 ^ f.fractionBits + roundHalfEven n (d * 2 ^ k)) f.infinity

/-- A pattern from its sign and the rest. -/
def signed (f : Format) (negative : Bool) (pattern : Nat) : Nat :=
  if negative then f.signBit + pattern else pattern

end LegMachine.Ieee
