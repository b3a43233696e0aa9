import BinaryQuadratic.Proofs.PassCount
import BinaryQuadratic.Random.KeyStream

set_option autoImplicit false

/-! When the report that the target is reached is true of the answer. The report is decided on the
energy that a search has tracked, while the answer carries an energy summed afresh. In exact
arithmetic these are one number; in machine numbers either may be the greater one. -/

namespace BinaryQuadratic

variable {α γ : Type} [Coefficient α] [Generator γ] {n : Nat}

namespace Target

/-- An energy in the sense of the problem is as good as the target. -/
def Met (t : Target α) (energy : α) : Prop :=
  if t.findMax then t.value ≤ energy else energy ≤ t.value

instance (t : Target α) (energy : α) : Decidable (t.Met energy) :=
  inferInstanceAs (Decidable (if t.findMax then t.value ≤ energy else energy ≤ t.value))

theorem met_signed_iff (turns : ∀ a b : α, -a ≤ b ↔ -b ≤ a) (t : Target α) (energy : α) :
    t.Met (Coefficient.signed t.findMax energy) ↔ t.isMet energy = true := by
  unfold Met isMet threshold
  rw [decide_eq_true_iff]
  cases t.findMax with
  | true => exact Iff.rfl
  | false => exact turns energy t.value

end Target

namespace SearchState

variable {limits : Limits} {target : Option (Target α)} {q : Qubo α}

/-- What holds between two iterations of the record and of the report that the target is reached. -/
structure Reporting (target : Option (Target α)) (s : SearchState q n) : Prop where
  trace_last : s.trace.getLast? = some s.bestEnergy
  targetReached_eq : s.targetReached = Target.reached target s.bestEnergy

theorem Reporting.iterates {s s' : SearchState q n} {g g' : γ} (reporting : s.Reporting target)
    (unreached : s.targetReached = false) (step : Iterates limits target s g s' g') :
    s'.Reporting target := by
  cases step with
  | reaches found counted climbs met => exact ⟨List.getLast?_concat, met.symm⟩
  | improves found counted climbs unmet bounded =>
      exact ⟨List.getLast?_concat, unreached.trans unmet.symm⟩
  | diverts found counted => exact ⟨reporting.trace_last, reporting.targetReached_eq⟩
  | idles found => exact ⟨reporting.trace_last, reporting.targetReached_eq⟩

theorem Reporting.leads {a b : SearchState q n × γ} (reporting : a.1.Reporting target)
    (path : Leads limits target a b) : b.1.Reporting target := by
  refine Leads.preserves path ?_ reporting
  intro s s' g g' held goes step
  exact held.iterates (Bool.or_eq_false_iff.mp goes).1 step

end SearchState

/-- A search reports the target as reached by the energy that it tracked last for its best. -/
theorem TabuSearch.targetReached_of_run {p : TabuSearch α} {limits : Limits} {q : Qubo α}
    {x : Assignment n} {effort : Effort} {ceiling : Nat} {g g' : γ} {found : Searched α n}
    (ends : p.run limits q x effort ceiling g = some (.ok found, g')) :
    ∃ tracked, found.outcome.bestTrace.getLast? = some tracked ∧
      found.outcome.targetReached = Target.reached p.target tracked := by
  obtain ⟨_, ⟨_, rfl, _⟩ | ⟨walk, g₀, last, _, path, _, rfl⟩⟩ := course_of_run ends
  · exact ⟨0, rfl, rfl⟩
  · have first : (SearchState.ofWalk p ceiling walk).Reporting p.target := ⟨rfl, rfl⟩
    have reporting := first.leads path
    exact ⟨last.bestEnergy, reporting.trace_last, reporting.targetReached_eq⟩

/-! ### What the solver reports -/

omit [Coefficient α] in
theorem mem_of_mem_bests {first best : Searched α n} {trials : List (Trial α n)}
    (member : best ∈ bests first trials) : best ∈ first :: trials.map (·.found) := by
  unfold bests at member
  rcases List.mem_cons.mp member with same | later
  · rw [same]
    exact List.mem_cons_self
  · obtain ⟨trial, kept, same⟩ := List.mem_map.mp later
    rw [← same]
    exact List.mem_cons_of_mem _ (List.mem_map_of_mem (List.mem_of_mem_filter kept))

namespace Solver

variable {limits : Limits} {g g₀ g' : γ}

theorem Passes.searches {p : Parameters α} {work : Qubo α} {first : Searched α n}
    {trials : List (Trial α n)} {state : Progress α n × γ}
    (begins : Begins limits p work g first g₀)
    (passes : Passes limits p work (started first, g₀) trials state) :
    ∀ found ∈ first :: trials.map (·.found), Searches limits p work g found := by
  induction passes with
  | none =>
      intro found member
      rw [List.mem_singleton.mp member]
      exact .first begins
  | onward before goes changes ends ih =>
      intro found member
      rw [List.map_append, ← List.cons_append] at member
      rcases List.mem_append.mp member with earlier | new
      · exact ih found earlier
      · rw [List.mem_singleton.mp new]
        exact .again ⟨first, g₀, begins, before.leads⟩ goes changes ends

/-- A solver that ends well answers the best of its searches of the whole problem, and reports the
target as reached by the energy that the latest of them tracked last. -/
theorem exists_latest_of_solve {p : Parameters α} {q : Qubo α} {value : α}
    {solution : Solution α q.size} (transitive : ∀ a b c : α, a < b → b < c → a < c)
    (sought : p.target = some value)
    (ends : solve limits p q g = some (.ok solution, g')) :
    ∃ first g₀ trials last earlier latest tracked,
      Begins limits p (p.maximized q) g first g₀ ∧
      Passes limits p (p.maximized q) (started first, g₀) trials (last, g') ∧
      isFinished p last = true ∧ solution = finished p last ∧
      (∃ best ∈ first :: trials.map (·.found), last.bestEnergy = best.outcome.energy) ∧
      first :: trials.map (·.found) = earlier ++ [latest] ∧
      latest.outcome.bestTrace.getLast? = some tracked ∧
      solution.targetReached = (Target.mk value p.findMax).isMet tracked := by
  obtain ⟨_, first, g₀, last, begins, path, stopped, answered⟩ := course_of_solve ends
  obtain ⟨trials, passes⟩ := exists_passes_of_leads path
  have tallies := Tallies.of_passes transitive begins passes
  obtain ⟨before, best, bests_eq, holds⟩ := tallies.held
  obtain ⟨earlier, latest, listed, reported⟩ := tallies.latest
  have best_mem : best ∈ first :: trials.map (·.found) := by
    apply mem_of_mem_bests
    rw [bests_eq]
    exact List.mem_append_right before List.mem_cons_self
  have latest_mem : latest ∈ first :: trials.map (·.found) := by
    rw [listed]
    exact List.mem_append_right earlier List.mem_cons_self
  obtain ⟨x, g₁, g₂, returned⟩ := (passes.searches begins latest latest_mem).exists_run
  obtain ⟨tracked, trace_last, reached⟩ := TabuSearch.targetReached_of_run returned
  have seeks : (p.wholeSearch q.size).target = some ⟨value, p.findMax⟩ := by
    unfold Parameters.wholeSearch
    rw [sought]
    rfl
  have decided : solution.targetReached = (Target.mk value p.findMax).isMet tracked := by
    rw [answered]
    change last.targetReached = _
    rw [reported, reached, seeks]
    rfl
  exact ⟨first, g₀, trials, last, earlier, latest, tracked, begins, passes, stopped, answered,
    ⟨best, best_mem, holds.energy_eq⟩, listed, trace_last, decided⟩

end Solver

section Machine

theorem Qubo.isNaN_energyWithin {q : Qubo Binary64} (finite : ∀ i j, (q.cell i j).IsFinite)
    (fits : n ≤ q.size) (x : Assignment n) : (q.energyWithin fits x).isNaN = false := by
  have coupled : ∀ i j, (q.coupling fits i j).IsFinite := by
    intro i j
    unfold coupling
    by_cases ordered : i ≤ j
    · rw [if_pos ordered]
      exact finite _ _
    · rw [if_neg ordered]
      exact finite _ _
  unfold energyWithin
  apply List.foldlRecOn (motive := fun total : Binary64 => total.isNaN = false)
  · rfl
  · intro total number i _
    apply List.foldlRecOn (motive := fun total : Binary64 => total.isNaN = false)
    · exact number
    · intro total number j _
      exact Binary64.isNaN_add number (coupled i j)

theorem Parameters.isFinite_maximized (p : Parameters Binary64) {q : Qubo Binary64}
    (finite : ∀ i j, (q.cell i j).IsFinite) : ∀ i j, ((p.maximized q).cell i j).IsFinite := by
  rcases p.maximized_cases q with ⟨_, same⟩ | ⟨_, same⟩
  · rw [same]
    exact finite
  · rw [same]
    intro i j
    have turned : q.negated.cell i j = -q.cell i j := q.cell_negated i j
    rw [turned]
    exact (finite i j).neg

variable {limits : Limits} {p : Parameters Binary64} {q : Qubo Binary64} {value : Binary64}
  {solution : Solution Binary64 q.size} {g g' : γ}

/-- A solver with a target reports it as reached exactly when the energy that the latest of its
searches of the whole problem tracked last is as good as the target. The answer is as good exactly
when the energy that one of these searches summed afresh is, so the report is true of it as long as
the latest search has not tracked a greater energy than it summed. -/
theorem met_iff_of_solve (finite : ∀ i j, (q.cell i j).IsFinite) (sought : p.target = some value)
    (ends : solve limits p q g = some (.ok solution, g')) :
    ∃ first g₀ trials last earlier latest tracked,
      Solver.Begins limits p (p.maximized q) g first g₀ ∧
      Solver.Passes limits p (p.maximized q) (Solver.started first, g₀) trials (last, g') ∧
      solution = Solver.finished p last ∧
      first :: trials.map (·.found) = earlier ++ [latest] ∧
      latest.outcome.bestTrace.getLast? = some tracked ∧
      (solution.targetReached = true ↔ (Target.mk value p.findMax).isMet tracked = true) ∧
      ((Target.mk value p.findMax).Met solution.energy ↔
        ∃ searched ∈ first :: trials.map (·.found),
          (Target.mk value p.findMax).isMet searched.outcome.energy = true) ∧
      (tracked ≤ latest.outcome.energy → solution.targetReached = true →
        (Target.mk value p.findMax).Met solution.energy) := by
  have transitive : ∀ a b c : Binary64, a < b → b < c → a < c := fun _ _ _ => Binary64.lt_trans
  obtain ⟨first, g₀, trials, last, earlier, latest, tracked, begins, passes, stopped, answered,
    ⟨best, best_mem, best_eq⟩, listed, trace_last, reported⟩ :=
      Solver.exists_latest_of_solve transitive sought ends
  have inside : q.size ≤ (p.maximized q).size := (p.size_maximized q).ge
  -- What is not a number would never be beaten by a search that reaches the target.
  have number : last.bestEnergy.isNaN = false := by
    have attained : Solver.Attains limits p (p.maximized q) g (last, g') :=
      ⟨first, g₀, begins, passes.leads⟩
    rw [Solver.bestEnergy_eq_of_attains attained inside]
    exact Qubo.isNaN_energyWithin (p.isFinite_maximized finite) inside last.best
  have met_iff : (Target.mk value p.findMax).Met solution.energy ↔
      (Target.mk value p.findMax).isMet last.bestEnergy = true := by
    rw [answered]
    exact Target.met_signed_iff (fun _ _ => Binary64.neg_le_iff) ⟨value, p.findMax⟩ last.bestEnergy
  have met_of_searched : ∀ searched ∈ first :: trials.map (·.found),
      (Target.mk value p.findMax).isMet searched.outcome.energy = true →
      (Target.mk value p.findMax).Met solution.energy := by
    intro searched member reaches
    have reaches : (Target.mk value p.findMax).threshold ≤ searched.outcome.energy :=
      of_decide_eq_true reaches
    have misses := Solver.not_lt_of_searches Binary64.not_lt_self transitive begins passes.leads
      stopped (passes.searches begins searched member)
    have raised : searched.outcome.energy ≤ last.bestEnergy :=
      Binary64.le_of_not_lt (Binary64.le_iff.mp reaches).2.1 number misses
    exact met_iff.mpr (decide_eq_true (Binary64.le_trans reaches raised))
  refine ⟨first, g₀, trials, last, earlier, latest, tracked, begins, passes, answered, listed,
    trace_last, ?_, ?_, ?_⟩
  · rw [reported]
  · constructor
    · intro met
      have reaches := met_iff.mp met
      rw [best_eq] at reaches
      exact ⟨best, best_mem, reaches⟩
    · rintro ⟨searched, member, reaches⟩
      exact met_of_searched searched member reaches
  · intro kept reached
    have latest_mem : latest ∈ first :: trials.map (·.found) := by
      rw [listed]
      exact List.mem_append_right earlier List.mem_cons_self
    rw [reported] at reached
    have reaches := Binary64.le_trans (of_decide_eq_true reached) kept
    exact met_of_searched latest latest_mem (decide_eq_true reaches)

end Machine

theorem met_iff_of_solve_after_one_pass :
    let tenths : Nat → Binary64 := fun count => .ofFraction false count 10
    let q : Qubo Binary64 :=
      ⟨4, #v[tenths 1, -tenths 2, -tenths 2, -tenths 1, 0, tenths 1, -tenths 2, tenths 3,
        0, 0, tenths 1, -tenths 1, 0, 0, 0, tenths 2]⟩
    let value := -tenths 3
    let p : Parameters Binary64 :=
      { subproblemSize := 3, repeats := 4, target := some value, tenure := some 2, budget := 1,
        subproblemBudget := 20 }
    let g : Scripted :=
      ⟨#[0x9e3779b97f4a7c15, 0xdeadbeefcafebabe, 0x8123456789abcdef, 0xf23456789abcdef1],
        by decide, 0⟩
    (∀ i j, (q.cell i j).IsFinite) ∧ p.target = some value ∧
    ∃ solution g', solve (Limits.uniform 64) p q g = some (.ok solution, g') ∧
      (solution.passes, solution.targetReached) = (1, true) ∧
      ∃ first g₀, ∃ trials : List (Trial Binary64 4),
        Solver.Begins (Limits.uniform 64) p (p.maximized q) g first g₀ ∧
        ((Target.mk value false).Met solution.energy ↔
          ∃ searched ∈ first :: trials.map (·.found),
            (Target.mk value false).isMet searched.outcome.energy = true) := by
  intro tenths q value p g
  have finite : ∀ i j, (q.cell i j).IsFinite := by decide +kernel
  have sought : p.target = some value := rfl
  have reported : ((solve (Limits.uniform 64) p q g).map fun result =>
      result.1.toOption.map fun solution => (solution.passes, solution.targetReached)) =
        some (some (1, true)) := by
    decide +kernel
  obtain ⟨solution, g', ends, values⟩ := Attempt.exists_ok_of_report reported
  obtain ⟨first, g₀, trials, _, _, _, _, begins, _, _, _, _, _, met_iff, _⟩ :=
    met_iff_of_solve finite sought ends
  exact ⟨finite, sought, solution, g', ends, values, first, g₀, trials, begins, met_iff⟩

/-- Toggles in another order than that of the rows track an energy that is one unit in the last place
above the sum row by row. As a target it is reported as reached, by an answer that falls short. -/
theorem exists_targetReached_and_not_met :
    let tenths : Nat → Binary64 := fun count => .ofFraction false count 10
    let q : Qubo Binary64 := ⟨3, #v[tenths 3, 0, 0, 0, tenths 2, 0, 0, 0, tenths 1]⟩
    let value := tenths 1 + tenths 2 + tenths 3
    let p : Parameters Binary64 :=
      { findMax := true, timeout := 0, target := some value, budget := 1 }
    let g := KeyStream.ofSeed 0
    (∀ i j, (q.cell i j).IsFinite) ∧ p.check = .ok () ∧
    ∃ solution g', solve (Limits.uniform 8) p q g = some (.ok solution, g') ∧
      (solution.targetReached, solution.energy) = (true, tenths 6) ∧
      ¬(Target.mk value true).Met solution.energy := by
  intro tenths q value p g
  have reported : ((solve (Limits.uniform 8) p q g).map fun result =>
      result.1.toOption.map fun solution => (solution.targetReached, solution.energy)) =
        some (some (true, tenths 6)) := by
    decide +kernel
  obtain ⟨solution, g', ends, values⟩ := Attempt.exists_ok_of_report reported
  have short : ¬(Target.mk value true).Met (tenths 6) := by decide +kernel
  have unmet : ¬(Target.mk value true).Met solution.energy := by
    rw [(Prod.mk.inj values).2]
    exact short
  obtain ⟨valid, _⟩ := Solver.course_of_solve ends
  exact ⟨by decide +kernel, valid, solution, g', ends, values, unmet⟩

/-- In exact arithmetic a target that is reported as reached is reached by the answer. -/
theorem met_of_solve {limits : Limits} {p : Parameters ℚ} {q : Qubo ℚ} {value : ℚ}
    {solution : Solution ℚ q.size} {g g' : γ} (sought : p.target = some value)
    (ends : solve limits p q g = some (.ok solution, g'))
    (reached : solution.targetReached = true) :
    (Target.mk value p.findMax).Met solution.energy := by
  obtain ⟨first, g₀, trials, last, earlier, latest, tracked, begins, passes, stopped, answered, _,
    listed, trace_last, reported⟩ := Solver.exists_latest_of_solve (fun _ _ _ => lt_trans) sought ends
  have searches : Solver.Searches limits p (p.maximized q) g latest := by
    apply passes.searches begins
    rw [listed]
    exact List.mem_append_right earlier List.mem_cons_self
  obtain ⟨x, g₁, g₂, returned⟩ := searches.exists_run
  obtain ⟨_, _, trace_energy, _⟩ := TabuSearch.run_outcome_best returned
  have tracked_eq : tracked = latest.outcome.energy :=
    Option.some.inj (trace_last.symm.trans trace_energy)
  have raised : latest.outcome.energy ≤ last.bestEnergy :=
    not_lt.mp (Solver.not_lt_of_searches lt_irrefl (fun _ _ _ => lt_trans) begins passes.leads
      stopped searches)
  rw [reported, tracked_eq] at reached
  have enough := (of_decide_eq_true reached).trans raised
  rw [answered]
  exact (Target.met_signed_iff (fun _ _ => neg_le) ⟨value, p.findMax⟩ last.bestEnergy).mpr
    (decide_eq_true enough)

end BinaryQuadratic
