import BinaryQuadratic.Binary64

set_option autoImplicit false

/-! The controls of the solver, their usual values and what they must satisfy. -/

namespace BinaryQuadratic

structure Parameters (α : Type) where
  findMax : Bool := false
  /-- The most variables that a subproblem may have; a problem no larger is searched whole. -/
  subproblemSize : Nat := 47
  /-- Stop after this many passes in a row without improvement. -/
  repeats : Nat := 50
  /-- The time limit in seconds, looked at between passes. -/
  timeout : Nat := 2592000
  target : Option α := none
  /-- The tenure of the tabu searches, if it is not to follow the size. -/
  tenure : Option Nat := none
  budget : Nat := 50000
  subproblemBudget : Nat := 5000
  /-- The share of the variables toggled between passes on a problem that is searched whole. -/
  perturbFraction : Binary64 := Binary64.ofFraction false 1 10

inductive ParameterError
  | subproblemSizeZero
  | budgetZero
  | subproblemBudgetZero
  | tenureOutOfRange
  | perturbFractionOutOfRange
deriving DecidableEq

def ParameterError.message : ParameterError → String
  | .subproblemSizeZero => invalid "sub_matrix_size" "must be positive"
  | .budgetZero => invalid "flip_budget" "must be positive"
  | .subproblemBudgetZero => invalid "sub_flip_budget" "must be positive"
  | .tenureOutOfRange => invalid "tabu_length" "must lie in 1..=65536"
  | .perturbFractionOutOfRange => invalid "perturb_fraction" "must lie in (0, 1]"
where
  invalid (name reason : String) : String := "invalid parameter `" ++ name ++ "`: " ++ reason

namespace Parameters

variable {α : Type}

def greatestTenure : Nat := 65536

def check (p : Parameters α) : Except ParameterError Unit :=
  if p.subproblemSize = 0 then .error .subproblemSizeZero
  else if p.budget = 0 then .error .budgetZero
  else if p.subproblemBudget = 0 then .error .subproblemBudgetZero
  else if p.tenure.any (fun tenure => tenure = 0 || greatestTenure < tenure) then
    .error .tenureOutOfRange
  else if 0 < p.perturbFraction ∧ p.perturbFraction ≤ 1 then .ok ()
  else .error .perturbFractionOutOfRange

end Parameters

end BinaryQuadratic
