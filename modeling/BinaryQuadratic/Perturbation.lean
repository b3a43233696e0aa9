import BinaryQuadratic.Assignment
import BinaryQuadratic.Binary64
import BinaryQuadratic.Random.Sample

set_option autoImplicit false

/-! Random starts, and random changes of an assignment between two searches. -/

namespace BinaryQuadratic

variable {γ : Type} [Generator γ] {n : Nat}

def randomAssignment (n : Nat) (g : γ) : Assignment n × γ := Generator.coins n g

def clampFraction (fraction : Binary64) : Binary64 :=
  if fraction < 0 then 0 else if 1 < fraction then 1 else fraction

/-- How many of `n` variables a fraction stands for: rounded up, and at least one. -/
def changeCount (fraction : Binary64) (n : Nat) : Nat :=
  min (max (clampFraction fraction * Binary64.ofNat n).ceilNat 1) n

/-- Toggle a random choice of variables; the choice is listed in the order drawn. -/
def perturb (redraws : Nat) (fraction : Binary64) (x : Assignment n) :
    Draw γ (List (Fin n) × Assignment n) :=
  if n = 0 then pure ([], x)
  else do
    let picked ← sample redraws (changeCount fraction n) (Nat.min_le_right _ _)
    return (picked, picked.foldl Assignment.toggle x)

end BinaryQuadratic
