import LegMachine.Ieee.Format

/-!
# Floating-point arithmetic

The four operations are exact on units and rounded once. Where there is no value the result is the
canonical pattern, whatever the operands hold. Comparison orders all patterns but those without a
value, and a zero equals the other one.
-/

namespace LegMachine.Ieee

inductive Operation where
  | add | sub | mul | div
  deriving DecidableEq, Repr

/-- The sum of two data. A zero sum is negative only if both operands are. -/
def add (f : Format) : Datum → Datum → Nat
  | .nan, _ => f.canonicalNaN
  | _, .nan => f.canonicalNaN
  | .infinite a, .infinite b => if a = b then signed f a f.infinity else f.canonicalNaN
  | .infinite a, .finite _ _ => signed f a f.infinity
  | .finite _ _, .infinite b => signed f b f.infinity
  | .finite a m, .finite b n =>
    let sum := Datum.signedUnits a m + Datum.signedUnits b n
    if sum = 0 then signed f (a && b) 0
    else signed f (sum < 0) (magnitude f sum.natAbs 1)

def Datum.negate : Datum → Datum
  | nan => nan
  | infinite a => infinite !a
  | finite a m => finite (!a) m

def mul (f : Format) : Datum → Datum → Nat
  | .nan, _ => f.canonicalNaN
  | _, .nan => f.canonicalNaN
  | .infinite a, .infinite b => signed f (a != b) f.infinity
  | .infinite a, .finite b n => if n = 0 then f.canonicalNaN else signed f (a != b) f.infinity
  | .finite a m, .infinite b => if m = 0 then f.canonicalNaN else signed f (a != b) f.infinity
  | .finite a m, .finite b n => signed f (a != b) (magnitude f (m * n) (2 ^ f.scale))

def div (f : Format) : Datum → Datum → Nat
  | .nan, _ => f.canonicalNaN
  | _, .nan => f.canonicalNaN
  | .infinite _, .infinite _ => f.canonicalNaN
  | .infinite a, .finite b _ => signed f (a != b) f.infinity
  | .finite a _, .infinite b => signed f (a != b) 0
  | .finite a m, .finite b n =>
    if n = 0 then if m = 0 then f.canonicalNaN else signed f (a != b) f.infinity
    else signed f (a != b) (magnitude f (m * 2 ^ f.scale) n)

/-- Apply an operation to two patterns. -/
def Operation.apply (op : Operation) (f : Format) (a b : Nat) : Nat :=
  let m := Datum.ofBits f a
  let n := Datum.ofBits f b
  match op with
  | add => Ieee.add f m n
  | sub => Ieee.add f m n.negate
  | mul => Ieee.mul f m n
  | div => Ieee.div f m n

/-- The pattern itself, or the canonical one where it has no value. -/
def canonical (f : Format) (pattern : Nat) : Nat :=
  if (Datum.ofBits f pattern).isNaN then f.canonicalNaN else pattern

inductive Relation where
  | less | equal | greater
  /-- One of them has no value. -/
  | unordered
  deriving DecidableEq, Repr

def Relation.ofInts (a b : Int) : Relation :=
  if a < b then less else if a = b then equal else greater

/-- How two data compare: an infinity lies beyond every number. -/
def relate : Datum → Datum → Relation
  | .nan, _ => .unordered
  | _, .nan => .unordered
  | .infinite a, .infinite b => .ofInts (Datum.signedUnits a 1) (Datum.signedUnits b 1)
  | .infinite a, .finite _ _ => if a then .less else .greater
  | .finite _ _, .infinite b => if b then .greater else .less
  | .finite a m, .finite b n => .ofInts (Datum.signedUnits a m) (Datum.signedUnits b n)

def compare (f : Format) (a b : Nat) : Relation :=
  relate (Datum.ofBits f a) (Datum.ofBits f b)

end LegMachine.Ieee
