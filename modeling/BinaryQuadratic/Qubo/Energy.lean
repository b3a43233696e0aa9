import BinaryQuadratic.Assignment
import BinaryQuadratic.Qubo

set_option autoImplicit false

/-! The objective and the gain of each single toggle, computed from nothing but the matrix and the
assignment. An assignment may be shorter than the matrix; then the leading block counts. -/

namespace BinaryQuadratic.Qubo

variable {α : Type} [Coefficient α] {n : Nat}

/-- The sum over the pairs `i ≤ j` of variables that are one, taken row by row. -/
def energyWithin (q : Qubo α) (fits : n ≤ q.size) (x : Assignment n) : α :=
  x.support.foldl
    (fun total i => (x.support.filter (i ≤ ·)).foldl (fun total j => total + q.coupling fits i j) total)
    0

/-- The change in energy that toggling `i` brings, where `ones` lists the variables that are one. -/
def flipCost (q : Qubo α) (fits : n ≤ q.size) (x : Assignment n) (ones : List (Fin n)) (i : Fin n) :
    α :=
  let gain := (ones.filter (· ≠ i)).foldl (fun sum j => sum + q.coupling fits i j)
    (q.coupling fits i i)
  Coefficient.signed (!x.get i) gain

def flipCostsWithin (q : Qubo α) (fits : n ≤ q.size) (x : Assignment n) : Vector α n :=
  let ones := x.support
  Vector.ofFn (q.flipCost fits x ones)

/-- The proof that an assignment of length `n` fits the matrix, or the fault that it does not. -/
def checkLength (q : Qubo α) (n : Nat) : Except Fault (PLift (n ≤ q.size)) :=
  if fits : n ≤ q.size then .ok ⟨fits⟩ else .error (.assignmentTooLong n q.size)

def energy (q : Qubo α) (x : Assignment n) : Except Fault α := do
  let ⟨fits⟩ ← q.checkLength n
  return q.energyWithin fits x

def flipCosts (q : Qubo α) (x : Assignment n) : Except Fault (Vector α n) := do
  let ⟨fits⟩ ← q.checkLength n
  return q.flipCostsWithin fits x

omit [Coefficient α] in
theorem checkLength_of_fits {q : Qubo α} (fits : n ≤ q.size) : q.checkLength n = .ok ⟨fits⟩ :=
  dif_pos fits

theorem energy_of_fits {q : Qubo α} (fits : n ≤ q.size) (x : Assignment n) :
    q.energy x = .ok (q.energyWithin fits x) := by
  unfold energy
  rw [checkLength_of_fits fits]
  rfl

theorem flipCosts_of_fits {q : Qubo α} (fits : n ≤ q.size) (x : Assignment n) :
    q.flipCosts x = .ok (q.flipCostsWithin fits x) := by
  unfold flipCosts
  rw [checkLength_of_fits fits]
  rfl

end BinaryQuadratic.Qubo
