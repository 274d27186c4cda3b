import LegMachine.Machine.Trap

/-!
# Services

A program calls a service by its number. A registry holds one service for each number, the one
registered last.
-/

namespace LegMachine

structure Service where
  number : Word
  name : String
  run : Machine → Outcome TrapCause

structure Registry where
  services : List Service

namespace Registry

def empty : Registry := ⟨[]⟩

/-- Add a service, in place of the one that has its number. -/
def register (r : Registry) (service : Service) : Registry :=
  ⟨service :: r.services.filter (·.number != service.number)⟩

def find? (r : Registry) (number : Word) : Option Service :=
  r.services.find? (·.number == number)

def size (r : Registry) : Nat := r.services.length

def ofList (services : List Service) : Registry :=
  services.foldl register empty

def dispatch (r : Registry) (number : Word) (m : Machine) : Outcome TrapCause :=
  match r.find? number with
  | none => .trapped (.invalidService number) m
  | some service => service.run m

end Registry

end LegMachine
