import BinaryQuadratic.Qubo
import BinaryQuadratic.Binary64

set_option autoImplicit false

/-! The linear congruential sequence on 64-bit words, and the matrices that it generates. -/

namespace BinaryQuadratic

namespace Congruential

def step (increment state : UInt64) : UInt64 := state * 6364136223846793005 + increment

/-- The density is a percentage of the cells above the diagonal; coefficients are whole numbers from
`-bound` to `bound`, divided by `divisor`. -/
structure Recipe where
  size : Nat
  seed : UInt64
  bound : Nat
  density : Nat
  divisor : Binary64

def draw (state : UInt64) : Nat × UInt64 :=
  let state := step 1442695040888963407 state
  ((state >>> 33).toNat, state)

/-- A number decides whether the cell is filled, and a second one then fills it. -/
def fill (recipe : Recipe) (filled : Qubo Binary64 × UInt64) (i j : Nat) :
    Except Fault (Qubo Binary64 × UInt64) := do
  let (q, state) := filled
  let (chance, state) := draw state
  if i = j ∨ chance % 100 < recipe.density then
    let (number, state) := draw state
    let value := Binary64.ofNat (number % (2 * recipe.bound + 1)) - Binary64.ofNat recipe.bound
    return (← q.set i j (value / recipe.divisor), state)
  else return (q, state)

def Recipe.build (recipe : Recipe) : Except Fault (Qubo Binary64) := do
  let empty ← Qubo.create recipe.size
  let rows := List.range recipe.size
  let filled ← rows.foldlM
    (fun filled i => (rows.drop i).foldlM (fun filled j => fill recipe filled i j) filled)
    (empty, recipe.seed)
  return filled.1

end Congruential

end BinaryQuadratic
