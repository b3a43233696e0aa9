import BinaryQuadratic.Proofs.LocalOptimum
import BinaryQuadratic.Proofs.Negation
import BinaryQuadratic.Proofs.Passes

set_option autoImplicit false

/-! What the solver answers. Its assignment and its energy come from one and the same search of the
whole problem, the best of all that it made, with the sign turned back to the sense of the problem. -/

namespace BinaryQuadratic

variable {γ : Type} [Generator γ] {limits : Limits} {g g' : γ}

namespace Solver

theorem Searches.exists_run {α : Type} [Coefficient α] {p : Parameters α} {work : Qubo α} {n : Nat}
    {found : Searched α n} (searches : Searches limits p work g found) :
    ∃ (x : Assignment n) (g₁ g₂ : γ),
      (p.wholeSearch n).run limits work x Effort.zero p.budget g₁ = some (.ok found, g₂) := by
  cases searches with
  | first begins => exact ⟨_, _, _, Attempt.adapt_eq_ok_iff.mp begins⟩
  | again attained goes changes ends => exact ⟨_, _, _, Attempt.adapt_eq_ok_iff.mp ends⟩

/-- What is held between two passes was returned by a search of the whole problem. -/
theorem exists_run_of_attains {α : Type} [Coefficient α] {p : Parameters α} {work : Qubo α}
    {n : Nat} {s : Progress α n} (attained : Attains limits p work g (s, g')) :
    ∃ held, s.Holds held ∧ ∃ (x : Assignment n) (g₁ g₂ : γ),
      (p.wholeSearch n).run limits work x Effort.zero p.budget g₁ = some (.ok held, g₂) := by
  obtain ⟨found, g₀, begins, path⟩ := attained
  obtain ⟨held, searches, holds⟩ := holds_of_leads begins path
  exact ⟨held, holds, searches.exists_run⟩

theorem bestEnergy_eq_of_attains {α : Type} [Coefficient α] {p : Parameters α} {work : Qubo α}
    {n : Nat} {s : Progress α n} (attained : Attains limits p work g (s, g'))
    (fits : n ≤ work.size) : s.bestEnergy = work.energyWithin fits s.best := by
  obtain ⟨held, holds, x, g₁, g₂, ends⟩ := exists_run_of_attains attained
  rw [holds.energy_eq, holds.best_eq]
  exact TabuSearch.energy_eq_of_run ends fits

theorem locallyGreatest_of_attains {p : Parameters ℚ} {work : Qubo ℚ} {n : Nat} {s : Progress ℚ n}
    (attained : Attains limits p work g (s, g')) (fits : n ≤ work.size) :
    work.LocallyGreatest fits s.best := by
  obtain ⟨held, holds, x, g₁, g₂, ends⟩ := exists_run_of_attains attained
  rw [holds.best_eq]
  exact TabuSearch.locallyGreatest_of_run ends fits

end Solver

theorem Binary64.signed_signed (positive : Bool) (a : Binary64) :
    Coefficient.signed positive (Coefficient.signed positive a) = a := by
  cases positive with
  | false => exact Binary64.neg_neg a
  | true => rfl

/-- The energy of the answer is that of its assignment in the problem as it was given, and no search
of the whole problem returned a greater one, in the sense that the searches maximize. -/
theorem energy_of_solve {p : Parameters Binary64} {q : Qubo Binary64}
    {solution : Solution Binary64 q.size}
    (ends : solve limits p q g = some (.ok solution, g')) :
    (∃ energy, q.energy solution.bits = .ok energy ∧ Binary64.Alike solution.energy energy) ∧
    ∀ searched : Searched Binary64 q.size, Solver.Searches limits p (p.maximized q) g searched →
      ¬Coefficient.signed p.findMax solution.energy < searched.outcome.energy := by
  obtain ⟨_, found, g₀, last, begins, path, finished, rfl⟩ := Solver.course_of_solve ends
  have inside : q.size ≤ (p.maximized q).size := (p.size_maximized q).ge
  constructor
  · refine ⟨q.energyWithin le_rfl last.best, Qubo.energy_of_fits le_rfl _, ?_⟩
    have attained : Solver.Attains limits p (p.maximized q) g (last, g') :=
      ⟨found, g₀, begins, path⟩
    change Binary64.Alike (Coefficient.signed p.findMax last.bestEnergy) _
    rw [Solver.bestEnergy_eq_of_attains attained inside]
    exact p.signed_energyWithin_maximized_alike q le_rfl inside last.best
  · intro searched searches
    change ¬Coefficient.signed p.findMax (Coefficient.signed p.findMax last.bestEnergy) < _
    rw [Binary64.signed_signed]
    have transitive : ∀ a b c : Binary64, a < b → b < c → a < c := fun _ _ _ => Binary64.lt_trans
    exact Solver.not_lt_of_searches Binary64.not_lt_self transitive begins path finished searches

theorem energy_of_solve_downward :
    let third : Binary64 := .ofFraction true 1 3
    let q : Qubo Binary64 :=
      ⟨3, #v[.ofNat 1, -.ofNat 3, .ofFraction false 1 2, 0, .ofNat 2, -.ofNat 1, 0, 0, third]⟩
    let p : Parameters Binary64 :=
      { subproblemSize := 2, repeats := 1, tenure := some 1, budget := 12, subproblemBudget := 4 }
    let g : Scripted :=
      ⟨#[5, 0x9e3779b97f4a7c15, 0xdeadbeefcafebabe, 0x123456789abcdef0], by decide, 0⟩
    ∃ solution g', solve (Limits.uniform 40) p q g = some (.ok solution, g') ∧
      (solution.passes, solution.bits) = (2, #v[true, true, true]) ∧
      (∃ energy, q.energy solution.bits = .ok energy ∧ Binary64.Alike solution.energy energy) ∧
      ∀ searched : Searched Binary64 q.size,
        Solver.Searches (Limits.uniform 40) p (p.maximized q) g searched →
          ¬Coefficient.signed p.findMax solution.energy < searched.outcome.energy := by
  intro third q p g
  have reported : ((solve (Limits.uniform 40) p q g).map fun result =>
      result.1.toOption.map fun solution => (solution.passes, solution.bits)) =
        some (some (2, #v[true, true, true])) := by
    decide +kernel
  obtain ⟨solution, g', ends, values⟩ := Attempt.exists_ok_of_report reported
  exact ⟨solution, g', ends, values, energy_of_solve ends⟩

/-- The energy is that of the assignment, and no single toggle makes it better. -/
structure Solution.LocallyOptimal {q : Qubo ℚ} (findMax : Bool) (solution : Solution ℚ q.size) :
    Prop where
  energy_eq : q.energy solution.bits = .ok solution.energy
  toggle_not_better : ∀ v, ∃ toggled, q.energy (solution.bits.toggle v) = .ok toggled ∧
    if findMax then toggled ≤ solution.energy else solution.energy ≤ toggled

theorem Solver.locallyOptimal_of_attains {p : Parameters ℚ} {q : Qubo ℚ} {s : Progress ℚ q.size}
    (attained : Attains limits p (p.maximized q) g (s, g')) :
    (finished p s).LocallyOptimal (q := q) p.findMax := by
  have inside : q.size ≤ (p.maximized q).size := (p.size_maximized q).ge
  have turned : ∀ x : Assignment q.size, q.energyWithin le_rfl x =
      Coefficient.signed p.findMax ((p.maximized q).energyWithin inside x) := by
    intro x
    exact (p.signed_energyWithin_maximized_eq q le_rfl inside x).symm
  have answered : (finished p s).energy = q.energyWithin le_rfl s.best := by
    rw [turned, ← bestEnergy_eq_of_attains attained inside]
    rfl
  constructor
  · rw [answered]
    exact Qubo.energy_of_fits le_rfl s.best
  · intro v
    refine ⟨q.energyWithin le_rfl (s.best.toggle v), Qubo.energy_of_fits le_rfl _, ?_⟩
    have greatest := (locallyGreatest_of_attains attained inside).toggle_le v
    rw [answered, turned, turned]
    cases p.findMax with
    | true => exact greatest
    | false => exact neg_le_neg greatest

/-- No single toggle betters the answer, nor what the solver would answer if a time limit stopped it
after its first search or after any pass. -/
theorem locallyOptimal_of_solve {p : Parameters ℚ} {q : Qubo ℚ} :
    (∀ (solution : Solution ℚ q.size) (g' : γ), solve limits p q g = some (.ok solution, g') →
      solution.LocallyOptimal p.findMax) ∧
    ∀ (s : Progress ℚ q.size) (g' : γ), Solver.Attains limits p (p.maximized q) g (s, g') →
      (Solver.finished p s).LocallyOptimal (q := q) p.findMax := by
  constructor
  · intro solution g' ends
    obtain ⟨_, found, g₀, last, begins, path, _, rfl⟩ := Solver.course_of_solve ends
    exact Solver.locallyOptimal_of_attains ⟨found, g₀, begins, path⟩
  · intro s g' attained
    exact Solver.locallyOptimal_of_attains attained

theorem locallyOptimal_of_solve_downward :
    let q : Qubo ℚ := ⟨3, #v[1, -3, 1 / 2, 7, 2, -1, 7, 7, -1 / 3]⟩
    let p : Parameters ℚ :=
      { subproblemSize := 2, repeats := 1, tenure := some 1, budget := 12, subproblemBudget := 4 }
    let g : Scripted :=
      ⟨#[5, 0x9e3779b97f4a7c15, 0xdeadbeefcafebabe, 0x123456789abcdef0], by decide, 0⟩
    ∃ solution g', solve (Limits.uniform 40) p q g = some (.ok solution, g') ∧
      (solution.passes, solution.energy) = (2, -5 / 6) ∧ solution.LocallyOptimal false := by
  intro q p g
  have reported : ((solve (Limits.uniform 40) p q g).map fun result =>
      result.1.toOption.map fun solution => (solution.passes, solution.energy)) =
        some (some (2, -5 / 6)) := by
    decide +kernel
  obtain ⟨solution, g', ends, values⟩ := Attempt.exists_ok_of_report reported
  exact ⟨solution, g', ends, values, locallyOptimal_of_solve.1 solution g' ends⟩

end BinaryQuadratic
