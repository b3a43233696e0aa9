import BinaryQuadratic.Qubo.Energy

set_option autoImplicit false

/-! The problem over a few of the variables, all others held at their present values. What the held
variables contribute to a chosen one is added to its diagonal coefficient. -/

namespace BinaryQuadratic

structure Subproblem (α : Type) (n : Nat) where
  /-- The chosen variables, in ascending order. -/
  indices : List (Fin n)
  qubo : Qubo α
  solution : Assignment indices.length

variable {α : Type} {n : Nat}

/-- Each value goes to its variable in turn. When the values run out, those written before stay. -/
def writeBack : (indices : List (Fin n)) → (values : List Bool) → Assignment n →
    Except Fault Unit × Assignment n
  | [], _, x => (.ok (), x)
  | _ :: _, [], x => (.error .outOfBounds, x)
  | v :: indices, value :: values, x => writeBack indices values (x.set v value)

namespace Subproblem

variable [Coefficient α]

/-- The sum of the couplings between `v` and the held variables that are one. -/
def clamp (q : Qubo α) (fits : n ≤ q.size) (held : List (Fin n)) (v : Fin n) : α :=
  held.foldl (fun sum j => sum + q.coupling fits v j) 0

def matrix (q : Qubo α) (fits : n ≤ q.size) (x : Assignment n) (indices : List (Fin n)) : Qubo α :=
  let held := x.support.filter (!indices.contains ·)
  let chosen := Vector.ofFn indices.get
  Qubo.ofFn indices.length fun a b =>
    let i := chosen.get a
    if a < b then q.coupling fits i (chosen.get b)
    else if a = b then q.coupling fits i i + clamp q fits held i
    else 0

def ofIndices (q : Qubo α) (fits : n ≤ q.size) (x : Assignment n) (indices : List (Fin n)) :
    Subproblem α n :=
  ⟨indices, matrix q fits x indices, Vector.ofFn fun k => x.get (indices.get k)⟩

end Subproblem

/-- The subproblem over any list of indices, which must ascend and stay below `n`. -/
def reduce [Coefficient α] (indices : List Nat) (q : Qubo α) (x : Assignment n) :
    Except Fault (Subproblem α n) := do
  let ⟨fits⟩ ← q.checkLength n
  if indices.Pairwise (· < ·) then
    if inside : ∀ v ∈ indices, v < n then
      return Subproblem.ofIndices q fits x (indices.pmap Fin.mk inside)
    else throw (.indexOutside n)
  else throw .indicesNotAscending

end BinaryQuadratic
