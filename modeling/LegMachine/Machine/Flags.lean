import LegMachine.Word

/-!
# Condition flags

The flag register is a byte. Its low four bits are Negative, Zero, Carry and oVerflow; the other
four have no meaning and no instruction touches them.
-/

namespace LegMachine

structure Flags where
  bits : BitVec 8
  deriving DecidableEq, Repr

namespace Flags

def clear : Flags := ⟨0⟩

def negative (f : Flags) : Bool := f.bits.getLsbD 3
def zero (f : Flags) : Bool := f.bits.getLsbD 2
def carry (f : Flags) : Bool := f.bits.getLsbD 1
def overflow (f : Flags) : Bool := f.bits.getLsbD 0

/-- The bits that are no flags. -/
def spare (f : Flags) : BitVec 8 := f.bits &&& 0xF0

/-- Replace the four flags and keep the spare bits. -/
def replace (f : Flags) (n z c v : Bool) : Flags :=
  let four := BitVec.ofBool n ++ BitVec.ofBool z ++ BitVec.ofBool c ++ BitVec.ofBool v
  ⟨f.spare ||| four.setWidth 8⟩

/-- Flags of a result: Negative and Zero come from its sign and value. -/
def ofResult (f : Flags) (result : Word) (overflow carry : Bool) : Flags :=
  f.replace result.msb (result == 0) carry overflow

theorem replace_bits (f : Flags) (n z c v : Bool) :
    (f.replace n z c v).bits.getLsbD 3 = n ∧ (f.replace n z c v).bits.getLsbD 2 = z ∧
      (f.replace n z c v).bits.getLsbD 1 = c ∧ (f.replace n z c v).bits.getLsbD 0 = v := by
  have hs : ∀ i < 4, f.spare.getLsbD i = false := by
    intro i hi
    have hm : (0xF0 : BitVec 8).getLsbD i = false := by
      revert i
      decide
    rw [spare, BitVec.getLsbD_and, hm, Bool.and_false]
  simp only [replace, BitVec.getLsbD_or, hs 0 (by decide), hs 1 (by decide), hs 2 (by decide),
    hs 3 (by decide), Bool.false_or]
  revert n z c v
  decide

@[simp] theorem negative_replace (f : Flags) (n z c v : Bool) :
    (f.replace n z c v).negative = n := (replace_bits f n z c v).1

@[simp] theorem zero_replace (f : Flags) (n z c v : Bool) :
    (f.replace n z c v).zero = z := (replace_bits f n z c v).2.1

@[simp] theorem carry_replace (f : Flags) (n z c v : Bool) :
    (f.replace n z c v).carry = c := (replace_bits f n z c v).2.2.1

@[simp] theorem overflow_replace (f : Flags) (n z c v : Bool) :
    (f.replace n z c v).overflow = v := (replace_bits f n z c v).2.2.2

end Flags

inductive Condition where
  | eq | ne | cs | cc | mi | pl | vs | vc | hi | ls | ge | lt | gt | le | al
  deriving DecidableEq, Repr

namespace Condition

def holds (c : Condition) (f : Flags) : Bool :=
  match c with
  | eq => f.zero
  | ne => !f.zero
  | cs => f.carry
  | cc => !f.carry
  | mi => f.negative
  | pl => !f.negative
  | vs => f.overflow
  | vc => !f.overflow
  | hi => f.carry && !f.zero
  | ls => !f.carry || f.zero
  | ge => f.negative == f.overflow
  | lt => f.negative != f.overflow
  | gt => f.negative == f.overflow && !f.zero
  | le => f.negative != f.overflow || f.zero
  | al => true

/-- Every condition, in the order of its code. -/
def all : List Condition :=
  [eq, ne, cs, cc, mi, pl, vs, vc, hi, ls, ge, lt, gt, le, al]

def name : Condition → String
  | eq => "Eq" | ne => "Ne" | cs => "Cs" | cc => "Cc" | mi => "Mi" | pl => "Pl" | vs => "Vs"
  | vc => "Vc" | hi => "Hi" | ls => "Ls" | ge => "Ge" | lt => "Lt" | gt => "Gt" | le => "Le"
  | al => "Al"

def ofName? (name : String) : Option Condition :=
  all.find? (·.name == name)

theorem ofName?_name (c : Condition) : ofName? c.name = some c := by
  cases c <;> decide

end Condition

end LegMachine
