import BinaryQuadratic.Qubo.Energy

set_option autoImplicit false

/-! An assignment that carries its energy and the cost of every toggle along. A toggle updates them
in one pass over the variables, without evaluating the objective again. -/

namespace BinaryQuadratic

structure Tracked {α : Type} (q : Qubo α) (n : Nat) where
  fits : n ≤ q.size
  bits : Assignment n
  energy : α
  costs : Vector α n

namespace Tracked

variable {α : Type} [Coefficient α] {q : Qubo α} {n : Nat}

def ofAssignmentWithin (q : Qubo α) (fits : n ≤ q.size) (x : Assignment n) : Tracked q n :=
  ⟨fits, x, q.energyWithin fits x, q.flipCostsWithin fits x⟩

def ofAssignment (q : Qubo α) (x : Assignment n) : Except Fault (Tracked q n) := do
  let ⟨fits⟩ ← q.checkLength n
  return ofAssignmentWithin q fits x

theorem ofAssignment_of_fits (fits : n ≤ q.size) (x : Assignment n) :
    ofAssignment q x = .ok (ofAssignmentWithin q fits x) := by
  unfold ofAssignment
  rw [Qubo.checkLength_of_fits fits]
  rfl

/-- The energy moves by the cost of `v`, which turns round. The cost of any other variable moves by
its coupling to `v`: up when the two variables differ after the toggle, down when they agree. -/
def flip (s : Tracked q n) (v : Fin n) : Tracked q n :=
  let on := !s.bits.get v
  { s with
    bits := s.bits.set v.val on v.isLt
    energy := s.energy + s.costs.get v
    costs := Vector.ofFn fun k =>
      if k = v then -s.costs.get v
      else s.costs.get k + Coefficient.signed (s.bits.get k != on) (q.coupling s.fits v k) }

def flipAt (s : Tracked q n) (v : Nat) : Except Fault (Tracked q n) :=
  if inside : v < n then .ok (s.flip ⟨v, inside⟩) else .error .outOfBounds

@[simp] theorem flipAt_val (s : Tracked q n) (v : Fin n) : s.flipAt v.val = .ok (s.flip v) :=
  dif_pos v.isLt

def costAt (s : Tracked q n) (v : Nat) : Except Fault α :=
  if inside : v < n then .ok (s.costs.get ⟨v, inside⟩) else .error .outOfBounds

end Tracked

end BinaryQuadratic
