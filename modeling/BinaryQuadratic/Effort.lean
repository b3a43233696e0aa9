import BinaryQuadratic.Fault
import BinaryQuadratic.Random.Generator
import BinaryQuadratic.Word

set_option autoImplicit false

/-! Search effort: the number of variables examined, whether or not they were toggled. A search must
not count past the greatest word. -/

namespace BinaryQuadratic

structure Effort where
  total : Nat
deriving DecidableEq

/-- A fault in the course of a search, and the effort that is shown after it. -/
structure Breakdown where
  fault : Fault
  effort : Effort

abbrev Attempt (γ : Type) := ExceptT Breakdown (Draw γ)

namespace Effort

def zero : Effort := ⟨0⟩

def tick (e : Effort) : Effort := ⟨e.total + 1⟩

/-- A count that was not made by searching starts again at zero after the greatest word. -/
def add (e : Effort) (count : Nat) : Effort := ⟨(e.total + count) % (greatestWord + 1)⟩

/-- The tick past the greatest word breaks a search down and leaves the count at zero. As nothing
else is kept of a search that breaks down, it is enough to check after several ticks. -/
def checked (e : Effort) : Except Breakdown Unit :=
  if e.total ≤ greatestWord then .ok () else .error ⟨.countOverflow, zero⟩

end Effort

end BinaryQuadratic
