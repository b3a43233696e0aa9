import BinaryQuadratic.Proofs.Quadratic

set_option autoImplicit false

/-! What the two evaluations from nothing but the matrix and the assignment mean in exact
arithmetic: the energy is the quadratic form of the values, and the cost of a toggle is the energy
after it less the energy before it. -/

namespace BinaryQuadratic.Qubo

variable {n : Nat} {q : Qubo ℚ} {fits : n ≤ q.size}

theorem energyWithin_eq_quadratic (x : Assignment n) :
    q.energyWithin fits x = quadratic (q.coupling fits) x.value := by
  unfold energyWithin quadratic Assignment.support
  simp only [foldl_add_eq_sum, List.filter_filter, sum_map_filter_finRange, zero_add]
  refine Finset.sum_congr rfl fun i _ => ?_
  cases held : x.get i with
  | false => simp [Assignment.value_of_get held]
  | true =>
      simp only [Assignment.value_of_get held, if_true, mul_one]
      refine Finset.sum_congr rfl fun j _ => ?_
      by_cases ordered : i ≤ j
      · simp [ordered, Assignment.value]
      · simp [ordered]

/-- What the energy gains when `i` goes from zero to one. -/
def marginal (q : Qubo ℚ) (fits : n ≤ q.size) (x : Assignment n) (i : Fin n) : ℚ :=
  q.coupling fits i i + ∑ j, if j = i then 0 else q.coupling fits i j * x.value j

theorem flipCost_eq_marginal (x : Assignment n) (i : Fin n) :
    q.flipCost fits x x.support i = Coefficient.signed (!x.get i) (q.marginal fits x i) := by
  unfold flipCost marginal Assignment.support
  simp only [foldl_add_eq_sum, List.filter_filter, sum_map_filter_finRange]
  congr 2
  refine Finset.sum_congr rfl fun j _ => ?_
  by_cases same : j = i
  · simp [same]
  · simp [same, Assignment.value]

/-- The marginal of a variable does not depend on the variable itself; toggling another one moves
it by the coupling of the two. -/
theorem marginal_toggle (x : Assignment n) (v i : Fin n) :
    q.marginal fits (x.toggle v) i = q.marginal fits x i +
      if i = v then 0 else Coefficient.signed (!x.get v) (q.coupling fits v i) := by
  have termwise : ∀ j, (if j = i then 0 else q.coupling fits i j * (x.toggle v).value j) =
      (if j = i then 0 else q.coupling fits i j * x.value j) +
        if j = v then (if v = i then 0 else Coefficient.signed (!x.get v) (q.coupling fits v i))
        else 0 := by
    intro j
    by_cases toggled : j = v
    · subst toggled
      rw [Assignment.value_of_get (x.get_toggle j j), coupling_comm q fits j i]
      cases held : x.get j <;> by_cases same : j = i <;>
        simp [Assignment.value_of_get held, Coefficient.signed, same]
    · have kept : (x.toggle v).value j = x.value j := by
        simp [Assignment.value, toggled]
      rw [kept, if_neg toggled, add_zero]
  unfold marginal
  rw [Finset.sum_congr rfl fun j _ => termwise j, Finset.sum_add_distrib, Finset.sum_ite_eq',
    if_pos (Finset.mem_univ v), ← add_assoc]
  simp only [eq_comm]

private theorem energyWithin_toggle_of_unset (x : Assignment n) (v : Fin n)
    (unset : x.get v = false) :
    q.energyWithin fits (x.toggle v) = q.energyWithin fits x + q.marginal fits x v := by
  have disjoint : ∀ i, (if i = v then 1 else 0) * x.value i = 0 := by
    intro i
    by_cases same : i = v
    · simp [same, Assignment.value_of_get unset]
    · simp [same]
  have across : (∑ i, ∑ j, q.coupling fits i j * (if i = v then 1 else 0) * x.value j) =
      ∑ j, if j = v then 0 else q.coupling fits v j * x.value j := by
    rw [Finset.sum_eq_single v]
    · refine Finset.sum_congr rfl fun j _ => ?_
      by_cases same : j = v
      · simp [same, Assignment.value_of_get unset]
      · simp [same]
    · intro i _ different
      simp [different]
    · simp
  rw [energyWithin_eq_quadratic, energyWithin_eq_quadratic, Assignment.value_toggle_of_unset x v unset,
    quadratic.add_of_disjoint (coupling_comm q fits) disjoint, quadratic.unit, across, marginal]
  ring

/-- The cost of a toggle is the change in energy that it brings. -/
theorem energyWithin_toggle (x : Assignment n) (v : Fin n) :
    q.energyWithin fits (x.toggle v) =
      q.energyWithin fits x + q.flipCost fits x x.support v := by
  rw [flipCost_eq_marginal]
  cases held : x.get v with
  | false => exact energyWithin_toggle_of_unset x v held
  | true =>
      have unset : (x.toggle v).get v = false := by
        rw [Assignment.get_toggle, if_pos rfl, held]
        rfl
      have back : q.energyWithin fits ((x.toggle v).toggle v) =
          q.energyWithin fits (x.toggle v) + q.marginal fits (x.toggle v) v :=
        energyWithin_toggle_of_unset (x.toggle v) v unset
      rw [Assignment.toggle_toggle, marginal_toggle, if_pos rfl, add_zero] at back
      rw [back]
      exact (add_neg_cancel_right _ _).symm

end BinaryQuadratic.Qubo
