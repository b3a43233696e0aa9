import BinaryQuadratic.Proofs.Transport
import BinaryQuadratic.Random.Scripted

set_option autoImplicit false

/-! Problems in another unit. Multiplying every coefficient by a positive factor keeps sums, signs and
all comparisons, so the solver takes the same decisions and draws the same words. -/

namespace BinaryQuadratic

def Coefficient.Embedding.scale (factor : ℚ) (positive : 0 < factor) : Embedding ℚ ℚ where
  toFun a := factor * a
  map_zero := mul_zero factor
  map_add := mul_add factor
  map_neg := mul_neg factor
  lt_iff := mul_lt_mul_iff_right₀ positive
  le_iff := mul_le_mul_iff_right₀ positive
  ranksBefore_eq _ _ := decide_eq_decide.mpr (mul_le_mul_iff_right₀ positive)

/-- In exact arithmetic, a problem with every coefficient multiplied by a positive factor, and with the
target multiplied by it too, has the same solution after the same flips and passes, with the same
words drawn, and the energy of it multiplied by the factor. It breaks off where the other does. -/
theorem solve_scaled {γ : Type} [Generator γ] {factor : ℚ} (positive : 0 < factor) (limits : Limits)
    (p : Parameters ℚ) (q : Qubo ℚ) :
    (solve limits { p with target := p.target.map (factor * ·) } (q.map (factor * ·)) :
      ExceptT SolveError (Draw γ) (Solution ℚ q.size)) =
      (fun solution => { solution with energy := factor * solution.energy }) <$>
        solve limits p q :=
  solve_transport (Qubo.Corresponds.map (Coefficient.Embedding.scale factor positive) le_rfl) limits p

theorem solve_scaled_three_halves :
    let factor : ℚ := 3 / 2
    let q : Qubo ℚ := ⟨3, #v[1, -3, 1 / 2, 7, 2, -1, 7, 7, -1 / 3]⟩
    let p : Parameters ℚ :=
      { subproblemSize := 2, repeats := 1, target := some (-4), tenure := some 1, budget := 12,
        subproblemBudget := 4 }
    let g : Scripted :=
      ⟨#[5, 0x9e3779b97f4a7c15, 0xdeadbeefcafebabe, 0x123456789abcdef0], by decide, 0⟩
    0 < factor ∧
    ∃ solution g', solve (Limits.uniform 40) p q g = some (.ok solution, g') ∧
      (solution.passes, solution.energy) = (2, -5 / 6) ∧
      solve (Limits.uniform 40) { p with target := some (-6 : ℚ) } (q.map (factor * ·)) g =
        some (.ok { solution with energy := factor * solution.energy }, g') := by
  intro factor q p g
  have positive : 0 < factor := by decide +kernel
  have target_eq : factor * -4 = -6 := by decide +kernel
  have reported : ((solve (Limits.uniform 40) p q g).map fun result =>
      result.1.toOption.map fun solution => (solution.passes, solution.energy)) =
        some (some (2, -5 / 6)) := by
    decide +kernel
  obtain ⟨solution, g', ends, values⟩ := Attempt.exists_ok_of_report reported
  have scaled := solve_scaled (γ := Scripted) positive (Limits.uniform 40) p q
  rw [Option.map_some, target_eq] at scaled
  refine ⟨positive, solution, g', ends, values, ?_⟩
  rw [scaled]
  exact Attempt.map_of_ok ends

end BinaryQuadratic
