set_option autoImplicit false

/-! The arithmetic that energies and flip costs are computed in. The search only adds, negates and
compares, so everything above is stated once and read over machine numbers and over exact numbers. -/

namespace BinaryQuadratic

/-- Numbers that an objective is summed in. `<` and `≤` may leave two values incomparable;
`ranksBefore` never does, so a ranking is total even then. -/
class Coefficient (α : Type) extends Zero α, Add α, Neg α, LT α, LE α where
  decidableLT : ∀ a b : α, Decidable (a < b)
  decidableLE : ∀ a b : α, Decidable (a ≤ b)
  /-- `a` stands at or before `b` when the greatest value comes first. -/
  ranksBefore : α → α → Bool

namespace Coefficient

variable {α : Type} [Coefficient α]

instance : DecidableLT α := decidableLT
instance : DecidableLE α := decidableLE

def signed (positive : Bool) (a : α) : α := if positive then a else -a

end Coefficient

end BinaryQuadratic
