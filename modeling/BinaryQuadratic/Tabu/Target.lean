import BinaryQuadratic.Coefficient

set_option autoImplicit false

/-! A value that is good enough, given in the sense of the problem: the search itself maximizes, so
that for a minimum the value changes sign. -/

namespace BinaryQuadratic

structure Target (α : Type) where
  value : α
  findMax : Bool

namespace Target

variable {α : Type} [Coefficient α]

def threshold (t : Target α) : α := Coefficient.signed t.findMax t.value

/-- Whether an energy of the maximizing search reaches the target. -/
def isMet (t : Target α) (energy : α) : Bool := t.threshold ≤ energy

def reached (target : Option (Target α)) (energy : α) : Bool := target.any (·.isMet energy)

end Target

end BinaryQuadratic
