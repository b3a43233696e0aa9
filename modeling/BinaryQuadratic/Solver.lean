import BinaryQuadratic.Perturbation
import BinaryQuadratic.Solver.Parameters
import BinaryQuadratic.Subproblem
import BinaryQuadratic.Tabu.Search

set_option autoImplicit false

/-! Repeated search for the best assignment. After a first search of the whole problem from a random
start, every pass changes the best assignment, by searching subproblems in order of their promise
or by a random perturbation, and searches the whole problem again from there. Passes that do not
improve the best are undone. All searches maximize; a minimum is sought on the negated matrix. A
perturbation draws its sample by the rule for fewer than 500000 variables, whatever their number. -/

namespace BinaryQuadratic

inductive SolveError
  | invalidParameter (error : ParameterError)
  | fault (fault : Fault)

/-- The best assignment found, with its energy in the sense of the problem. -/
structure Solution (α : Type) (n : Nat) where
  bits : Assignment n
  energy : α
  flips : Nat
  passes : Nat
  targetReached : Bool

structure Progress (α : Type) (n : Nat) where
  current : Assignment n
  best : Assignment n
  bestEnergy : α
  /-- A sum over all searches, not held to a word as an effort is: sums past one are left out. -/
  flips : Nat
  passes : Nat
  /-- Passes in a row that did not improve the best. -/
  stale : Nat
  targetReached : Bool

namespace Parameters

variable {α : Type}

def wholeSearch (p : Parameters α) (n : Nat) : TabuSearch α :=
  { tenure := p.tenure.getD (usualTenure n)
    target := p.target.map (⟨·, p.findMax⟩)
    maxExtensions := TabuSearch.usualExtensions }

/-- The search of a subproblem, which has no target of its own. -/
def subproblemSearch (p : Parameters α) (n : Nat) : TabuSearch α :=
  { tenure := p.tenure.getD (usualTenure (min p.subproblemSize n))
    target := none
    maxExtensions := TabuSearch.usualExtensions }

def maximized [Coefficient α] (p : Parameters α) (q : Qubo α) : Qubo α :=
  if p.findMax then q else q.negated

end Parameters

namespace Solver

variable {α γ : Type} [Coefficient α] [Generator γ] {n : Nat}

abbrev Partial (n : Nat) := Assignment n × Nat

def searchWhole (limits : Limits) (p : Parameters α) (work : Qubo α) (x : Assignment n) :
    ExceptT Fault (Draw γ) (Searched α n) :=
  ExceptT.adapt Breakdown.fault ((p.wholeSearch n).run limits work x Effort.zero p.budget)

/-- Search the subproblem over a chunk of variables and write the result back. -/
def searchChunk (limits : Limits) (p : Parameters α) (work : Qubo α) (state : Partial n)
    (chunk : List (Fin n)) : ExceptT Fault (Draw γ) (Partial n) := do
  let (x, spent) := state
  let indices := insertionSort (fun i j => decide (i ≤ j)) (chunk.map (·.val))
  let sub ← liftExcept (reduce indices work x)
  let found ← ExceptT.adapt Breakdown.fault
    ((p.subproblemSearch n).run limits sub.qubo sub.solution Effort.zero p.subproblemBudget)
  let (written, x) := writeBack sub.indices found.bits.toList x
  liftExcept written
  return (x, spent + found.effort.total)

/-- Chunks of the ranking by flip cost, one after another, each on what the earlier ones left. -/
def decompose (limits : Limits) (p : Parameters α) (work : Qubo α) (x : Assignment n) :
    ExceptT Fault (Draw γ) (Partial n) := do
  let costs ← liftExcept (work.flipCosts x)
  (chunks p.subproblemSize (ranking costs)).foldlM (searchChunk limits p work) (x, 0)

def diversify (limits : Limits) (p : Parameters α) (work : Qubo α) (x : Assignment n) :
    ExceptT Fault (Draw γ) (Partial n) :=
  if p.subproblemSize < n then decompose limits p work x
  else do
    let changed ← monadLift (perturb limits.redraws p.perturbFraction x :
      Draw γ (List (Fin n) × Assignment n))
    return (changed.2, 0)

/-- Keep what a pass found if it is better than the best, and go back to the best otherwise. -/
def judge (s : Progress α n) (spent : Nat) (found : Searched α n) : Progress α n :=
  let s := { s with
    flips := s.flips + spent + found.outcome.flips
    passes := s.passes + 1
    targetReached := found.outcome.targetReached }
  if s.bestEnergy < found.outcome.energy then
    { s with
      current := found.bits
      best := found.bits
      bestEnergy := found.outcome.energy
      stale := 0 }
  else { s with current := s.best, stale := s.stale + 1 }

def pass (limits : Limits) (p : Parameters α) (work : Qubo α) (s : Progress α n) :
    ExceptT Fault (Draw γ) (Progress α n) := do
  let (x, spent) ← diversify limits p work s.current
  let found ← searchWhole limits p work x
  return judge s spent found

/-- No clock is read: a time limit of zero allows no pass, and any other one is never reached. -/
def isFinished (p : Parameters α) (s : Progress α n) : Bool :=
  s.targetReached || p.repeats ≤ s.stale || p.timeout = 0

def passesFrom (limits : Limits) (p : Parameters α) (work : Qubo α) (passes : Nat)
    (s : Progress α n) : ExceptT Fault (Draw γ) (Progress α n) :=
  repeatUntil (isFinished p) (pass limits p work) passes s

def started (found : Searched α n) : Progress α n :=
  { current := found.bits
    best := found.bits
    bestEnergy := found.outcome.energy
    flips := found.outcome.flips
    passes := 0
    stale := 0
    targetReached := found.outcome.targetReached }

def finished (p : Parameters α) (s : Progress α n) : Solution α n :=
  { bits := s.best
    energy := Coefficient.signed p.findMax s.bestEnergy
    flips := s.flips
    passes := s.passes
    targetReached := s.targetReached }

def course (limits : Limits) (p : Parameters α) (work : Qubo α) (n : Nat) :
    ExceptT Fault (Draw γ) (Progress α n) := do
  let x ← monadLift (Draw.total (randomAssignment n) : Draw γ (Assignment n))
  let found ← searchWhole limits p work x
  passesFrom limits p work limits.passes (started found)

end Solver

/-- The best assignment found for `q`, once the parameters have been checked. -/
def solve {α γ : Type} [Coefficient α] [Generator γ] (limits : Limits) (p : Parameters α)
    (q : Qubo α) : ExceptT SolveError (Draw γ) (Solution α q.size) := do
  liftExcept (p.check.mapError SolveError.invalidParameter)
  let s ← ExceptT.adapt SolveError.fault (Solver.course limits p (p.maximized q) q.size)
  return Solver.finished p s

end BinaryQuadratic
