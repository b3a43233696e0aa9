import BinaryQuadratic.Proofs.MachineNumbers
import BinaryQuadratic.Proofs.Rational
import BinaryQuadratic.Solver

set_option autoImplicit false

/-! The search for a least energy as a search for a greatest one. Negating every coefficient negates
the energy of every assignment; in machine numbers only the sign of a zero may differ. -/

namespace BinaryQuadratic

variable {α : Type} [Coefficient α] {n : Nat}

theorem Qubo.cell_negated (q : Qubo α) (i j : Fin q.size) : q.negated.cell i j = -q.cell i j :=
  Vector.getElem_map (-·) (cell_lt i.isLt j.isLt)

theorem Qubo.coupling_negated (q : Qubo α) (fits : n ≤ q.size) (i j : Fin n) :
    q.negated.coupling fits i j = -q.coupling fits i j := by
  by_cases ordered : i ≤ j
  · unfold coupling
    rw [if_pos ordered, if_pos ordered]
    exact cell_negated q _ _
  · unfold coupling
    rw [if_neg ordered, if_neg ordered]
    exact cell_negated q _ _

/-- What holds between two sums as long as each term of the one is the negated term of the other. -/
theorem Qubo.energyWithin_negated {R : α → α → Prop} (start : R 0 0)
    (step : ∀ total opposite c, R total opposite → R (total + c) (opposite + -c)) (q : Qubo α)
    (fits : n ≤ q.size) (x : Assignment n) :
    R (q.energyWithin fits x) (q.negated.energyWithin fits x) := by
  unfold energyWithin
  refine List.foldl_rel start fun i _ total opposite held => ?_
  refine List.foldl_rel held fun j _ total opposite held => ?_
  rw [coupling_negated]
  exact step total opposite _ held

namespace Parameters

theorem maximized_cases (p : Parameters α) (q : Qubo α) :
    (p.findMax = true ∧ p.maximized q = q) ∨ (p.findMax = false ∧ p.maximized q = q.negated) := by
  unfold maximized
  cases p.findMax with
  | true => exact .inl ⟨rfl, rfl⟩
  | false => exact .inr ⟨rfl, rfl⟩

theorem size_maximized (p : Parameters α) (q : Qubo α) : (p.maximized q).size = q.size := by
  rcases p.maximized_cases q with ⟨_, same⟩ | ⟨_, same⟩
  · rw [same]
  · rw [same]
    rfl

/-- The energy that the search maximizes, in the sense of the problem: equal to the energy of the
problem as far as `R` tells. -/
theorem signed_energyWithin_maximized {R : α → α → Prop} (refl : ∀ a, R a a) (start : R (-0) 0)
    (step : ∀ total opposite c, R (-opposite) total → R (-(opposite + -c)) (total + c))
    (p : Parameters α) (q : Qubo α) (fits : n ≤ q.size) (inside : n ≤ (p.maximized q).size)
    (x : Assignment n) :
    R (Coefficient.signed p.findMax ((p.maximized q).energyWithin inside x))
      (q.energyWithin fits x) := by
  rcases p.maximized_cases q with ⟨upward, same⟩ | ⟨downward, same⟩
  · generalize p.maximized q = work at inside same
    subst same
    rw [upward]
    exact refl _
  · generalize p.maximized q = work at inside same
    subst same
    rw [downward]
    exact Qubo.energyWithin_negated (R := fun total opposite => R (-opposite) total) start step q fits x

theorem signed_energyWithin_maximized_eq (p : Parameters ℚ) (q : Qubo ℚ) (fits : n ≤ q.size)
    (inside : n ≤ (p.maximized q).size) (x : Assignment n) :
    Coefficient.signed p.findMax ((p.maximized q).energyWithin inside x) = q.energyWithin fits x := by
  refine signed_energyWithin_maximized (fun _ => rfl) neg_zero ?_ p q fits inside x
  intro total opposite c held
  rw [neg_add, neg_neg, held]

theorem signed_energyWithin_maximized_alike (p : Parameters Binary64) (q : Qubo Binary64)
    (fits : n ≤ q.size) (inside : n ≤ (p.maximized q).size) (x : Assignment n) :
    Binary64.Alike (Coefficient.signed p.findMax ((p.maximized q).energyWithin inside x))
      (q.energyWithin fits x) := by
  refine signed_energyWithin_maximized Binary64.Alike.refl (.of_zeros rfl rfl) ?_ p q fits inside x
  intro total opposite c held
  have sum : Binary64.Alike (-(opposite + -c)) (-opposite + c) := by
    have turned := (Binary64.neg_add_neg opposite (-c)).symm
    rw [Binary64.neg_neg] at turned
    exact turned
  exact sum.trans (held.add_right c)

end Parameters

end BinaryQuadratic
