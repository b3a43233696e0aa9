import BinaryQuadratic.Random.Generator

set_option autoImplicit false

/-! Random orders. A shuffle only swaps places, so its result is a rearrangement whatever words the
generator gives. -/

namespace BinaryQuadratic

variable {γ β : Type} [Generator γ] {n : Nat}

/-- Settle the places `count - 1`, …, `1` in turn, each by a swap with a place at or before it. -/
def shufflePlaces (redraws : Nat) :
    (count : Nat) → count ≤ n → Vector β n → Draw γ (Vector β n)
  | 0, _, items => pure items
  | 1, _, items => pure items
  | count + 2, bound, items => do
    let place ← Generator.below redraws (count + 2) (Nat.succ_pos _)
    shufflePlaces redraws (count + 1) (Nat.le_of_succ_le bound)
      (items.swap (count + 1) place bound (Nat.lt_of_lt_of_le place.isLt bound))

def shuffle (redraws : Nat) (items : Vector β n) : Draw γ (Vector β n) :=
  shufflePlaces redraws n (Nat.le_refl n) items

end BinaryQuadratic
