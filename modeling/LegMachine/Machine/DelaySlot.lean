import LegMachine.Word

/-!
# The delay slot

With delayed branching a taken branch does not write the program counter at once. Its target waits
in the delay slot until the instruction behind the branch is done.
-/

namespace LegMachine

/-- A deferred write to the program counter. -/
inductive DelaySlot where
  | empty
  /-- The branch itself is executing. -/
  | registered (target : Word)
  /-- The instruction behind the branch is executing. -/
  | triggered (target : Word)
  deriving DecidableEq, Repr

namespace DelaySlot

/-- Take a new target; an older one is dropped. -/
def register (target : Word) (_ : DelaySlot) : DelaySlot :=
  registered target

def pending? : DelaySlot → Option Word
  | empty => none
  | registered t => some t
  | triggered t => some t

/-- An instruction has completed: the slot afterwards, and the target that is due now. -/
def advance : DelaySlot → DelaySlot × Option Word
  | empty => (empty, none)
  | registered t => (triggered t, none)
  | triggered t => (empty, some t)

end DelaySlot

end LegMachine
