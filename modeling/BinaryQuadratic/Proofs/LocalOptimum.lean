import BinaryQuadratic.Proofs.BestVisited
import BinaryQuadratic.Proofs.LastSweep

set_option autoImplicit false

/-! Local optima in exact arithmetic. The last sweep of a local search looks at every variable and
toggles none, so no toggle raises the energy at its end; and a tabu search records nothing but the
ends of local searches. -/

namespace BinaryQuadratic

variable {γ : Type} [Generator γ] {q : Qubo ℚ} {n : Nat}

/-- No single toggle raises the energy. -/
structure Qubo.LocallyGreatest (q : Qubo ℚ) (fits : n ≤ q.size) (x : Assignment n) : Prop where
  toggle_le : ∀ v, q.energyWithin fits (x.toggle v) ≤ q.energyWithin fits x

namespace Tracked

theorem Exact.locallyGreatest {s : Tracked q n} (exact : s.Exact)
    (none_raises : ∀ v, ¬0 < s.costs.get v) : q.LocallyGreatest s.fits s.bits := by
  refine ⟨fun v => ?_⟩
  have cost : s.costs.get v ≤ 0 := not_lt.mp (none_raises v)
  calc q.energyWithin s.fits (s.bits.toggle v)
      = s.energy + s.costs.get v := (exact.energy_flip v).symm
    _ ≤ s.energy := add_le_of_nonpos_right cost
    _ = q.energyWithin s.fits s.bits := exact.energy_eq

end Tracked

namespace Walk

variable {start last : Walk q n} {g g' : γ}

/-- No cost is positive at the end of a local search, and its costs are the true changes in energy. -/
theorem locallyGreatest_of_climb {limits : Limits} (exact : start.current.Exact)
    (ends : climb limits start g = some (.ok last, g')) :
    q.LocallyGreatest last.current.fits last.current.bits :=
  (exact_of_climb exact ends).locallyGreatest (not_pos_of_climb ends)

end Walk

namespace SearchState

variable {limits : Limits} {target : Option (Target ℚ)}

theorem locallyGreatest_of_iterates {s s' : SearchState q n} {g g' : γ} (recorded : s.Recorded)
    (held : q.LocallyGreatest s.walk.current.fits s.best)
    (step : Iterates limits target s g s' g') :
    q.LocallyGreatest s'.walk.current.fits s'.best := by
  cases step with
  | @reaches v _ _ _ found counted climbs met =>
      exact Walk.locallyGreatest_of_climb (recorded.exact.flip v) climbs
  | @improves v _ _ _ found counted climbs unmet bounded =>
      exact Walk.locallyGreatest_of_climb (recorded.exact.flip v) climbs
  | diverts found counted => exact held
  | idles found => exact held

theorem locallyGreatest_of_leads {a b : SearchState q n × γ} (path : Leads limits target a b)
    (recorded : a.1.Recorded) (held : q.LocallyGreatest a.1.walk.current.fits a.1.best) :
    q.LocallyGreatest b.1.walk.current.fits b.1.best := by
  induction path with
  | refl => exact held
  | tail path advance ih =>
      exact locallyGreatest_of_iterates (recorded.reaches path).1 ih (Proceeds.iterates advance)

end SearchState

namespace TabuSearch

/-- What a tabu search returns is the end of a local search. -/
theorem locallyGreatest_of_run {p : TabuSearch ℚ} {limits : Limits} {x : Assignment n}
    {effort : Effort} {ceiling : Nat} {g g' : γ} {found : Searched ℚ n}
    (ends : p.run limits q x effort ceiling g = some (.ok found, g')) (fits : n ≤ q.size) :
    q.LocallyGreatest fits found.bits := by
  obtain ⟨_, ⟨rfl, _⟩ | ⟨walk, g₀, last, climbs, path, _, rfl⟩⟩ := course_of_run ends
  · exact ⟨fun v => v.elim0⟩
  · have first : q.LocallyGreatest walk.current.fits walk.current.bits :=
      Walk.locallyGreatest_of_climb (.ofAssignmentWithin _ x) climbs
    exact SearchState.locallyGreatest_of_leads path (recorded_ofWalk p ceiling climbs) first

end TabuSearch

end BinaryQuadratic
