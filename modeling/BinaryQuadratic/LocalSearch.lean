import BinaryQuadratic.Effort
import BinaryQuadratic.Limits
import BinaryQuadratic.Random.Shuffle
import BinaryQuadratic.Tracked

set_option autoImplicit false

/-! Ascent to an assignment that no single toggle improves. Every sweep visits each variable once in
a new random order and toggles it at once if that raises the energy; a sweep without a toggle is
the last. -/

namespace BinaryQuadratic

/-- A tracked assignment under way, with the effort spent so far. -/
structure Walk {α : Type} (q : Qubo α) (n : Nat) where
  current : Tracked q n
  effort : Effort

namespace Walk

variable {α γ : Type} [Coefficient α] [Generator γ] {q : Qubo α} {n : Nat}

/-- A visited variable, and whether it was toggled, which is listed. -/
def visit (state : Walk q n × List (Fin n)) (v : Fin n) : Walk q n × List (Fin n) :=
  let (walk, toggled) := state
  let effort := walk.effort.tick
  if 0 < walk.current.costs.get v then (⟨walk.current.flip v, effort⟩, v :: toggled)
  else (⟨walk.current, effort⟩, toggled)

/-- One sweep in the given order, with the toggled variables, the last one first. -/
def sweep (walk : Walk q n) (order : List (Fin n)) : Walk q n × List (Fin n) :=
  order.foldl visit (walk, [])

/-- Sweeps until one toggles nothing. Every order is shuffled from the one before. -/
def climbFrom (redraws : Nat) :
    (sweeps : Nat) → Vector (Fin n) n → Walk q n → Attempt γ (Walk q n)
  | 0, _, _ => monadLift (Draw.abandoned : Draw γ (Walk q n))
  | sweeps + 1, order, walk => do
    let order ← (shuffle redraws order : Draw γ (Vector (Fin n) n))
    let (walk, toggled) := walk.sweep order.toList
    liftExcept walk.effort.checked
    match toggled with
    | [] => pure walk
    | _ :: _ => climbFrom redraws sweeps order walk

def climb (limits : Limits) (walk : Walk q n) : Attempt γ (Walk q n) :=
  climbFrom limits.redraws limits.sweeps (Vector.ofFn id) walk

end Walk

def localOptimum {α γ : Type} [Coefficient α] [Generator γ] {n : Nat} (limits : Limits) (q : Qubo α)
    (x : Assignment n) (effort : Effort) : Attempt γ (Walk q n) := do
  let start ← liftExcept ((Tracked.ofAssignment q x).mapError (Breakdown.mk · effort))
  Walk.climb limits ⟨start, effort⟩

end BinaryQuadratic
