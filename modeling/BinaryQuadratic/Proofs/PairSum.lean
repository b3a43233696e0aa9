import BinaryQuadratic.Proofs.Tracking
import BinaryQuadratic.Proofs.Indexed.Evaluation

set_option autoImplicit false

/-! The objective written out over the pairs of variables. Energies are added up row by row over the
ones, and costs over a part of a row and a part of a column; in exact arithmetic the one is the sum
over all pairs and the other a difference of two such sums. -/

namespace BinaryQuadratic

variable {n : Nat}

theorem quadratic_eq_sum_pairs (coefficient : Fin n → Fin n → ℚ) (values : Fin n → ℚ) :
    quadratic coefficient values = ∑ pair : Fin n × Fin n with pair.1 ≤ pair.2,
      coefficient pair.1 pair.2 * values pair.1 * values pair.2 := by
  rw [Finset.sum_filter, Fintype.sum_prod_type]
  rfl

namespace Qubo

theorem coupling_of_le {α : Type} {q : Qubo α} (fits : n ≤ q.size) {i j : Fin n} (ordered : i ≤ j) :
    q.coupling fits i j = q.cell (i.castLE fits) (j.castLE fits) :=
  if_pos ordered

variable {q : Qubo ℚ} {fits : n ≤ q.size}

theorem energyWithin_eq_sum_pairs (x : Assignment n) :
    q.energyWithin fits x = ∑ pair : Fin n × Fin n with pair.1 ≤ pair.2,
      q.cell (pair.1.castLE fits) (pair.2.castLE fits) * x.value pair.1 * x.value pair.2 := by
  rw [energyWithin_eq_quadratic, quadratic_eq_sum_pairs]
  refine Finset.sum_congr rfl fun pair member => ?_
  rw [coupling_of_le fits (Finset.mem_filter.mp member).2]

theorem get_flipCostsWithin_eq_sub (x : Assignment n) (i : Fin n) :
    (q.flipCostsWithin fits x).get i =
      q.energyWithin fits (x.toggle i) - q.energyWithin fits x := by
  rw [get_flipCostsWithin, energyWithin_toggle]
  ring

end Qubo

/-- The energy of an assignment that fits the matrix is the sum over all pairs `i ≤ j` of the entry at
the pair times the values of both variables, and the cost of each variable is the energy after its
toggle less the energy before it. The walks along the stored rows find the same numbers. -/
theorem energy_eq_sum_pairs (q : Qubo ℚ) (x : Assignment n) (fits : n ≤ q.size) :
    ∃ energy costs, q.energy x = .ok energy ∧ q.flipCosts x = .ok costs ∧
      energy = ∑ pair : Fin n × Fin n with pair.1 ≤ pair.2,
        q.cell (pair.1.castLE fits) (pair.2.castLE fits) * x.value pair.1 * x.value pair.2 ∧
      (∀ i, ∃ toggled, q.energy (x.toggle i) = .ok toggled ∧ costs.get i = toggled - energy) ∧
      (q.size ≤ greatestWord →
        Indexed.energy q x.toList = .ok energy ∧ Indexed.flipCosts q x.toList = .ok costs.toList) := by
  refine ⟨q.energyWithin fits x, q.flipCostsWithin fits x, Qubo.energy_of_fits fits x,
    Qubo.flipCosts_of_fits fits x, Qubo.energyWithin_eq_sum_pairs x, ?_, ?_⟩
  · intro i
    exact ⟨_, Qubo.energy_of_fits fits (x.toggle i), Qubo.get_flipCostsWithin_eq_sub x i⟩
  · intro counted
    exact ⟨Indexed.energy_eq_ok fits counted x, Indexed.flipCosts_eq_ok fits counted x⟩

/-- The cells below the diagonal and outside the leading block play no part. -/
theorem energy_eq_sum_pairs_leading_block :
    let q : Qubo ℚ := ⟨3, #v[1, -2, 7, 5, 1 / 2, 7, 7, 7, 7]⟩
    let x : Assignment 2 := #v[true, true]
    let costs : Vector ℚ 2 := #v[1, 3 / 2]
    ∃ fits : 2 ≤ q.size, q.energy x = .ok (-1 / 2) ∧ q.flipCosts x = .ok costs ∧
      (-1 / 2 = ∑ pair : Fin 2 × Fin 2 with pair.1 ≤ pair.2,
        q.cell (pair.1.castLE fits) (pair.2.castLE fits) * x.value pair.1 * x.value pair.2) ∧
      (∀ i, ∃ toggled, q.energy (x.toggle i) = .ok toggled ∧ costs.get i = toggled - -1 / 2) ∧
      (q.size ≤ greatestWord →
        Indexed.energy q x.toList = .ok (-1 / 2) ∧
          Indexed.flipCosts q x.toList = .ok costs.toList) := by
  intro q x costs
  have fits : 2 ≤ q.size := by decide
  have energy_eq : q.energy x = .ok (-1 / 2) := by decide +kernel
  have costs_eq : q.flipCosts x = .ok costs := by decide +kernel
  obtain ⟨energy, found, evaluates, finds, sums⟩ := energy_eq_sum_pairs q x fits
  cases energy_eq.symm.trans evaluates
  cases costs_eq.symm.trans finds
  exact ⟨fits, energy_eq, costs_eq, sums⟩

end BinaryQuadratic
