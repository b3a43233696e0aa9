import BinaryQuadratic.LocalSearch
import BinaryQuadratic.Ranking
import BinaryQuadratic.Tabu.Budget
import BinaryQuadratic.Tabu.TabuList
import BinaryQuadratic.Tabu.Target

set_option autoImplicit false

/-! Tabu search for a greatest energy. An iteration looks through the variables that are not
forbidden, in the order of the last ranking. The first that beats the best energy is toggled and
followed by a local search; if there is none, the least bad one is toggled instead, and if every
variable is forbidden, the iterations until one is free are passed over. -/

namespace BinaryQuadratic

structure TabuSearch (α : Type) where
  tenure : Nat
  target : Option (Target α)
  maxExtensions : Nat

def TabuSearch.usualExtensions : Nat := 900

structure Outcome (α : Type) where
  /-- The energy of the best assignment, summed afresh. -/
  energy : α
  flips : Nat
  ceiling : Nat
  targetReached : Bool
  /-- The energy after the first local search and after every improvement. -/
  bestTrace : List α
  iterations : Nat
  /-- Toggles made by the iterations themselves, not by local searches. -/
  moves : Nat

structure Searched (α : Type) (n : Nat) where
  outcome : Outcome α
  bits : Assignment n
  effort : Effort

structure SearchState {α : Type} (q : Qubo α) (n : Nat) where
  walk : Walk q n
  best : Assignment n
  bestEnergy : α
  trace : List α
  order : List (Fin n)
  tabu : TabuList n
  budget : Budget
  iterations : Nat
  moves : Nat
  targetReached : Bool

inductive Scan (α : Type) (n : Nat)
  | improving (v : Fin n) (effort : Effort)
  /-- Nothing beats the best energy; the greatest energy within reach, if any, and the effort. -/
  | exhausted (nearMiss : Option (Fin n × α)) (effort : Effort)

namespace SearchState

variable {α γ : Type} [Coefficient α] [Generator γ] {q : Qubo α} {n : Nat}

/-- Of two equal energies the earlier one is kept. -/
def nearer (nearMiss : Option (Fin n × α)) (v : Fin n) (energy : α) : Option (Fin n × α) :=
  match nearMiss with
  | none => some (v, energy)
  | some (u, most) => if most < energy then some (v, energy) else some (u, most)

def scan (tabu : TabuList n) (current : Tracked q n) (best : α) :
    List (Fin n) → Option (Fin n × α) → Effort → Scan α n
  | [], nearMiss, effort => .exhausted nearMiss effort
  | v :: rest, nearMiss, effort =>
    if tabu.forbids v then scan tabu current best rest nearMiss effort
    else
      let energy := current.energy + current.costs.get v
      if best < energy then .improving v effort.tick
      else scan tabu current best rest (nearer nearMiss v energy) effort.tick

def countIterations (s : SearchState q n) (count : Nat) : SearchState q n :=
  { s with iterations := min (s.iterations + count) greatestWord }

/-- An iteration that moved `v` ends: the countdowns drop and `v` is forbidden. -/
def settle (s : SearchState q n) (v : Fin n) : Attempt γ (SearchState q n) := do
  let longer ← (Draw.total Generator.coin : Draw γ Bool)
  return { s with tabu := s.tabu.relax.arm v longer }

/-- The end of a climb after a move becomes the best, and the variables are ranked anew. -/
def record (s : SearchState q n) (walk : Walk q n) : SearchState q n :=
  { s with
    walk
    best := walk.current.bits
    bestEnergy := walk.current.energy
    trace := s.trace ++ [walk.current.energy]
    order := ranking walk.current.costs
    moves := s.moves + 1 }

/-- Toggle `v`, climb, and record a new best; reaching the target ends the search at once. -/
def improve (limits : Limits) (target : Option (Target α)) (s : SearchState q n) (v : Fin n)
    (effort : Effort) : Attempt γ (SearchState q n) := do
  let walk ← Walk.climb limits ⟨s.walk.current.flip v, effort⟩
  let s := s.record walk
  if Target.reached target walk.current.energy then return { s with targetReached := true }
  else
    let budget := s.budget.improved walk.effort
    liftExcept (budget.checked walk.effort)
    settle { s with budget } v

def divert (s : SearchState q n) (v : Fin n) (effort : Effort) : Attempt γ (SearchState q n) :=
  settle { s with walk := ⟨s.walk.current.flip v, effort⟩, moves := s.moves + 1 } v

/-- With every variable forbidden, count the iterations until one is free; the first of them has
been counted before. -/
def idle (s : SearchState q n) : SearchState q n :=
  { s with tabu := s.tabu.skipIdle }.countIterations (s.tabu.shortest - 1)

def iterate (limits : Limits) (target : Option (Target α)) (s : SearchState q n) :
    Attempt γ (SearchState q n) := do
  let s := s.countIterations 1
  match scan s.tabu s.walk.current s.bestEnergy s.order none s.walk.effort with
  | .improving v effort =>
    liftExcept effort.checked
    s.improve limits target v effort
  | .exhausted (some (v, _)) effort =>
    liftExcept effort.checked
    s.divert v effort
  | .exhausted none _ => return s.idle

def isFinished (s : SearchState q n) : Bool := s.targetReached || s.budget.isSpent s.walk.effort

def iterateFrom (limits : Limits) (target : Option (Target α)) (iterations : Nat)
    (s : SearchState q n) : Attempt γ (SearchState q n) :=
  repeatUntil isFinished (iterate limits target) iterations s

def ofWalk (p : TabuSearch α) (ceiling : Nat) (walk : Walk q n) : SearchState q n :=
  let energy := walk.current.energy
  { walk
    best := walk.current.bits
    bestEnergy := energy
    trace := [energy]
    order := ranking walk.current.costs
    tabu := TabuList.empty n p.tenure
    budget := Budget.ofCeiling ceiling walk.effort p.maxExtensions
    iterations := 0
    moves := 0
    targetReached := Target.reached p.target energy }

/-- The report of a finished state, for a run that began with the effort `start`. -/
def searched (s : SearchState q n) (start : Effort) : Searched α n :=
  { outcome :=
      { energy := q.energyWithin s.walk.current.fits s.best
        flips := s.walk.effort.total - start.total
        ceiling := s.budget.ceiling
        targetReached := s.targetReached
        bestTrace := s.trace
        iterations := s.iterations
        moves := s.moves }
    bits := s.best
    effort := s.walk.effort }

end SearchState

namespace TabuSearch

variable {α γ : Type} [Coefficient α] [Generator γ] {n : Nat}

def withoutVariables (p : TabuSearch α) (x : Assignment n) (effort : Effort) (ceiling : Nat) :
    Searched α n :=
  { outcome :=
      { energy := 0
        flips := 0
        ceiling
        targetReached := Target.reached p.target 0
        bestTrace := [0]
        iterations := 0
        moves := 0 }
    bits := x
    effort }

def runWithin (limits : Limits) (p : TabuSearch α) (q : Qubo α) (fits : n ≤ q.size)
    (x : Assignment n) (effort : Effort) (ceiling : Nat) : Attempt γ (Searched α n) :=
  if n = 0 then pure (p.withoutVariables x effort ceiling)
  else do
    let walk ← Walk.climb limits ⟨Tracked.ofAssignmentWithin q fits x, effort⟩
    let finished ← SearchState.iterateFrom limits p.target limits.iterations
      (SearchState.ofWalk p ceiling walk)
    return finished.searched effort

/-- Improve `x` until the effort reaches `ceiling`, which improvements may move, or until the target
is reached. -/
def run (limits : Limits) (p : TabuSearch α) (q : Qubo α) (x : Assignment n) (effort : Effort)
    (ceiling : Nat) : Attempt γ (Searched α n) := do
  let ⟨fits⟩ ← liftExcept ((q.checkLength n).mapError (Breakdown.mk · effort))
  p.runWithin limits q fits x effort ceiling

end TabuSearch

end BinaryQuadratic
