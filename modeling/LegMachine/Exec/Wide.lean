import LegMachine.Word

/-!
# Wide arithmetic

Sums with flags and products are formed in 64 bits. A result that does not fit there has no value;
`FlagSum` is what the flag-setting forms make of one that does.
-/

namespace LegMachine

/-- A signed integer, if 64 bits hold it. -/
def wide? (v : Int) : Option Int :=
  if -0x8000000000000000 ≤ v ∧ v < 0x8000000000000000 then some v else none

def unsignedWide? (v : Nat) : Option Nat :=
  if v < 0x10000000000000000 then some v else none

/-- A sum cut to a word. -/
structure FlagSum where
  result : Word
  /-- The low words of the addends carry out of bit 31. -/
  carry : Bool
  /-- The result is not the sum. -/
  overflow : Bool
  deriving DecidableEq, Repr

/-- Add two 64-bit integers and cut the sum to a word. -/
def addWithFlags? (a b : Int) : Option FlagSum :=
  (wide? (a + b)).map fun sum =>
    let result := BitVec.ofInt 32 sum
    { result
      carry := 0x100000000 ≤ (BitVec.ofInt 32 a).toNat + (BitVec.ofInt 32 b).toNat
      overflow := result.toInt ≠ sum }

theorem wide?_eq_some {v : Int} (hlow : -0x8000000000000000 ≤ v) (hhigh : v < 0x8000000000000000) :
    wide? v = some v := if_pos ⟨hlow, hhigh⟩

/-- Words are far from the bounds. -/
theorem wide?_add (a b : Int) (ha : -0x100000000 ≤ a ∧ a ≤ 0x100000000)
    (hb : -0x100000000 ≤ b ∧ b ≤ 0x100000000) : wide? (a + b) = some (a + b) :=
  wide?_eq_some (by omega) (by omega)

end LegMachine
