import BinaryQuadratic.Proofs.Rational
import BinaryQuadratic.Qubo.Energy

set_option autoImplicit false

/-! The objective in exact arithmetic is a quadratic form in the values of the variables. Everything
about toggles and about subproblems follows from one law: the form of a sum of two value vectors
without a common variable is the sum of their forms and of the couplings across. -/

namespace BinaryQuadratic

variable {n : Nat}

/-- The sum over the pairs `i ≤ j` of the coefficient times both values. -/
def quadratic (coefficient : Fin n → Fin n → ℚ) (values : Fin n → ℚ) : ℚ :=
  ∑ i, ∑ j, if i ≤ j then coefficient i j * values i * values j else 0

namespace Assignment

def value (x : Assignment n) (i : Fin n) : ℚ := if x.get i then 1 else 0

theorem value_of_get {x : Assignment n} {i : Fin n} {bit : Bool} (held : x.get i = bit) :
    x.value i = if bit then 1 else 0 := by
  rw [value, held]

theorem value_mul_self (x : Assignment n) (i : Fin n) : x.value i * x.value i = x.value i := by
  unfold value
  cases x.get i <;> simp

theorem value_toggle_of_unset (x : Assignment n) (v : Fin n) (unset : x.get v = false) :
    (x.toggle v).value = fun i => (if i = v then 1 else 0) + x.value i := by
  funext i
  by_cases same : i = v
  · subst same
    rw [value_of_get unset, value_of_get (x.get_toggle i i), unset]
    simp
  · simp [value, same]

end Assignment

namespace quadratic

variable {coefficient : Fin n → Fin n → ℚ}

private theorem sum_swapped (symmetric : ∀ i j, coefficient i j = coefficient j i)
    (left right : Fin n → ℚ) :
    (∑ i, ∑ j, if i ≤ j then coefficient i j * right i * left j else 0) =
      ∑ i, ∑ j, if j ≤ i then coefficient i j * left i * right j else 0 := by
  rw [Finset.sum_comm]
  refine Finset.sum_congr rfl fun i _ => Finset.sum_congr rfl fun j _ => ?_
  rw [symmetric j i, mul_right_comm]

theorem add_of_disjoint (symmetric : ∀ i j, coefficient i j = coefficient j i)
    {left right : Fin n → ℚ} (disjoint : ∀ i, left i * right i = 0) :
    quadratic coefficient (fun i => left i + right i) =
      quadratic coefficient left + quadratic coefficient right +
        ∑ i, ∑ j, coefficient i j * left i * right j := by
  have expanded : quadratic coefficient (fun i => left i + right i) =
      quadratic coefficient left + quadratic coefficient right +
        ((∑ i, ∑ j, if i ≤ j then coefficient i j * left i * right j else 0) +
          ∑ i, ∑ j, if i ≤ j then coefficient i j * right i * left j else 0) := by
    simp only [quadratic, ← Finset.sum_add_distrib]
    refine Finset.sum_congr rfl fun i _ => Finset.sum_congr rfl fun j _ => ?_
    by_cases ordered : i ≤ j
    · simp only [if_pos ordered]
      ring
    · simp only [if_neg ordered, add_zero]
  -- A pair stands in one of the two orders, and in both only on the diagonal, where it vanishes.
  have across : ∀ i j, ((if i ≤ j then coefficient i j * left i * right j else 0) +
      if j ≤ i then coefficient i j * left i * right j else 0) =
        coefficient i j * left i * right j := by
    intro i j
    rcases lt_trichotomy i j with before | same | after
    · rw [if_pos before.le, if_neg before.not_ge, add_zero]
    · subst same
      rw [if_pos le_rfl, mul_assoc, disjoint i, mul_zero, add_zero]
    · rw [if_neg after.not_ge, if_pos after.le, zero_add]
  rw [expanded, sum_swapped symmetric left right]
  simp only [← Finset.sum_add_distrib, across]

theorem unit (v : Fin n) :
    quadratic coefficient (fun i => if i = v then 1 else 0) = coefficient v v := by
  have inner : ∀ i, (∑ j, if i ≤ j then
      coefficient i j * (if i = v then 1 else 0) * (if j = v then 1 else 0) else 0) =
        if i = v then coefficient v v else 0 := by
    intro i
    by_cases same : i = v
    · subst same
      rw [Finset.sum_eq_single i]
      · simp
      · intro j _ different
        simp [different]
      · simp
    · simp [same]
  simp only [quadratic, inner, Finset.sum_ite_eq', Finset.mem_univ, if_true]

theorem congr_upper {other : Fin n → Fin n → ℚ} (values : Fin n → ℚ)
    (same : ∀ i j, i ≤ j → coefficient i j = other i j) :
    quadratic coefficient values = quadratic other values := by
  refine Finset.sum_congr rfl fun i _ => Finset.sum_congr rfl fun j _ => ?_
  by_cases ordered : i ≤ j
  · rw [if_pos ordered, if_pos ordered, same i j ordered]
  · rw [if_neg ordered, if_neg ordered]

theorem add_diagonal (diagonal values : Fin n → ℚ) :
    quadratic (fun i j => coefficient i j + if i = j then diagonal i else 0) values =
      quadratic coefficient values + ∑ i, diagonal i * values i * values i := by
  unfold quadratic
  rw [← Finset.sum_add_distrib]
  refine Finset.sum_congr rfl fun i _ => ?_
  have own : diagonal i * values i * values i =
      ∑ j, if i = j then diagonal i * values i * values j else 0 := by
    rw [Finset.sum_ite_eq, if_pos (Finset.mem_univ i)]
  rw [own, ← Finset.sum_add_distrib]
  refine Finset.sum_congr rfl fun j _ => ?_
  by_cases same : i = j
  · simp only [same, le_refl, if_true]
    ring
  · simp [same]

/-- Values that vanish outside an ascending choice of variables are a form in the chosen ones. -/
theorem restrict {count : Nat} {choice : Fin count → Fin n} (ascending : StrictMono choice)
    {values : Fin n → ℚ} (outside : ∀ i, i ∉ Set.range choice → values i = 0) :
    quadratic coefficient values =
      quadratic (fun a b => coefficient (choice a) (choice b)) (fun a => values (choice a)) := by
  have inner : ∀ i, (∑ j, if i ≤ j then coefficient i j * values i * values j else 0) =
      ∑ b, if i ≤ choice b then coefficient i (choice b) * values i * values (choice b) else 0 := by
    intro i
    refine (Fintype.sum_of_injective choice ascending.injective _ _ ?_ fun b => rfl).symm
    intro j absent
    rw [outside j absent, mul_zero, ite_self]
  simp only [quadratic, inner]
  refine (Fintype.sum_of_injective choice ascending.injective _ _ ?_ ?_).symm
  · intro i absent
    simp only [outside i absent, mul_zero, zero_mul, ite_self, Finset.sum_const_zero]
  · intro a
    simp only [ascending.le_iff_le]

end quadratic

end BinaryQuadratic
