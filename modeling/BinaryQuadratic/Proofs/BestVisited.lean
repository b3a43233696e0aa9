import BinaryQuadratic.Proofs.Ascent
import BinaryQuadratic.Proofs.Course
import BinaryQuadratic.Random.Scripted

set_option autoImplicit false

/-! The outcome of a tabu search in exact arithmetic. Between two iterations the working assignment is
never better than the recorded best, and every record is made at the end of a local search that
began above the best before it; so the last record bounds all that the search has seen. -/

namespace BinaryQuadratic

variable {γ : Type} [Generator γ] {q : Qubo ℚ} {n : Nat}

namespace SearchState

variable {limits : Limits} {target : Option (Target ℚ)} {s s' : SearchState q n} {g g' : γ}

/-- A candidate that is examined does not beat the best after the iteration: it did not beat the
one before, or it was moved to and climbed from. -/
theorem candidate_le_of_iterates (step : Iterates limits target s g s' g') {v : Fin n}
    (member : v ∈ s.examines) : candidate s.walk.current v ≤ s'.bestEnergy := by
  have improved : ∀ {u : Fin n} {left : Effort} {walk : Walk q n} {g₁ : γ},
      s.scanned = .improving u left →
      Walk.climb limits ⟨s.walk.current.flip u, left⟩ g = some (.ok walk, g₁) →
      candidate s.walk.current v ≤ walk.current.energy := by
    intro u left walk g₁ found climbs
    have raised : candidate s.walk.current u ≤ walk.current.energy := Walk.energy_le_of_climb climbs
    obtain ⟨beats, _, others⟩ := of_scan_improving found
    rcases others v member with same | misses
    · rw [same]
      exact raised
    · exact (not_lt.mp misses).trans (beats.le.trans raised)
  cases step with
  | reaches found counted climbs met => exact improved found climbs
  | improves found counted climbs unmet bounded => exact improved found climbs
  | diverts found counted => exact not_lt.mp ((of_scan_exhausted found).2 v member)
  | idles found => exact not_lt.mp ((of_scan_exhausted found).2 v member)

theorem bestEnergy_le_of_iterates (step : Iterates limits target s g s' g') :
    s.bestEnergy ≤ s'.bestEnergy := by
  have improved : ∀ {v : Fin n} {left : Effort}, s.scanned = .improving v left →
      s.bestEnergy ≤ s'.bestEnergy := by
    intro v left found
    obtain ⟨beats, member, _⟩ := of_scan_improving found
    exact beats.le.trans (candidate_le_of_iterates step member)
  cases step with
  | reaches found counted climbs met => exact improved found
  | improves found counted climbs unmet bounded => exact improved found
  | diverts found counted => exact le_rfl
  | idles found => exact le_rfl

/-- What holds between two iterations. -/
structure Recorded (s : SearchState q n) : Prop where
  exact : s.walk.current.Exact
  best_eq : s.bestEnergy = q.energyWithin s.walk.current.fits s.best
  current_le : s.walk.current.energy ≤ s.bestEnergy
  trace_last : s.trace.getLast? = some s.bestEnergy

namespace Recorded

theorem ofWalk {walk : Walk q n} (exact : walk.current.Exact) (p : TabuSearch ℚ) (ceiling : Nat) :
    (SearchState.ofWalk p ceiling walk).Recorded :=
  ⟨exact, exact.energy_eq, le_rfl, rfl⟩

private theorem record (recorded : s.Recorded) {v : Fin n} {effort : Effort} {walk : Walk q n}
    (climbs : Walk.climb limits ⟨s.walk.current.flip v, effort⟩ g = some (.ok walk, g')) :
    (s.record walk).Recorded := by
  have exact : walk.current.Exact := Walk.exact_of_climb (recorded.exact.flip v) climbs
  exact ⟨exact, exact.energy_eq, le_rfl, List.getLast?_concat⟩

theorem iterates (recorded : s.Recorded) (step : Iterates limits target s g s' g') :
    s'.Recorded := by
  cases step with
  | reaches found counted climbs met =>
      obtain ⟨exact, best_eq, current_le, trace_last⟩ := recorded.record climbs
      exact ⟨exact, best_eq, current_le, trace_last⟩
  | improves found counted climbs unmet bounded =>
      obtain ⟨exact, best_eq, current_le, trace_last⟩ := recorded.record climbs
      exact ⟨exact, best_eq, current_le, trace_last⟩
  | @diverts v energy effort found counted =>
      have misses := (of_scan_exhausted found).2 v (mem_examined_of_scan found)
      exact ⟨recorded.exact.flip v, recorded.best_eq, not_lt.mp misses, recorded.trace_last⟩
  | idles found =>
      exact ⟨recorded.exact, recorded.best_eq, recorded.current_le, recorded.trace_last⟩

theorem ascent_le (recorded : s.Recorded) (step : Iterates limits target s g s' g') {v : Fin n}
    {left : Effort} {y : Assignment n} {fits : n ≤ q.size} (found : s.scanned = .improving v left)
    (visits : Walk.Visits limits ⟨s.walk.current.flip v, left⟩ g y) :
    q.energyWithin fits y ≤ s'.bestEnergy := by
  cases step with
  | reaches found' counted climbs met =>
      rw [found] at found'
      cases found'
      exact visits.energy_le (recorded.exact.flip v) climbs
  | improves found' counted climbs unmet bounded =>
      rw [found] at found'
      cases found'
      exact visits.energy_le (recorded.exact.flip v) climbs
  | diverts found' counted =>
      rw [found] at found'
      cases found'
  | idles found' =>
      rw [found] at found'
      cases found'

theorem reaches {a b : SearchState q n × γ} (recorded : a.1.Recorded)
    (path : Leads limits target a b) :
    b.1.Recorded ∧ a.1.bestEnergy ≤ b.1.bestEnergy := by
  induction path with
  | refl => exact ⟨recorded, le_rfl⟩
  | tail _ advance ih =>
      have step := Proceeds.iterates advance
      exact ⟨ih.1.iterates step, ih.2.trans (bestEnergy_le_of_iterates step)⟩

end Recorded

end SearchState

namespace TabuSearch

variable {p : TabuSearch ℚ} {limits : Limits} {fits : n ≤ q.size} {x : Assignment n}
  {effort : Effort} {ceiling : Nat} {g g₀ g' : γ} {walk : Walk q n} {last : SearchState q n}

theorem recorded_ofWalk (p : TabuSearch ℚ) (ceiling : Nat)
    (climbs : Walk.climb limits ⟨Tracked.ofAssignmentWithin q fits x, effort⟩ g =
      some (.ok walk, g₀)) : (SearchState.ofWalk p ceiling walk).Recorded :=
  .ofWalk (Walk.exact_of_climb (.ofAssignmentWithin fits x) climbs) p ceiling

section Bounds

variable
  (climbs : Walk.climb limits ⟨Tracked.ofAssignmentWithin q fits x, effort⟩ g = some (.ok walk, g₀))
  (path : SearchState.Leads limits p.target (SearchState.ofWalk p ceiling walk, g₀) (last, g'))
  (finished : last.isFinished = true)

include climbs path finished

private theorem Heads.bounded {head : SearchState q n × γ}
    (starts : p.Heads limits fits x effort ceiling g head) :
    head.1.Recorded ∧ ∃ next : SearchState q n × γ,
      SearchState.Iterates limits p.target head.1 head.2 next.1 next.2 ∧
      next.1.bestEnergy ≤ last.bestEnergy := by
  obtain ⟨before, next, proceeds, after⟩ := starts.next climbs path finished
  have step := SearchState.Proceeds.iterates proceeds
  obtain ⟨recorded, _⟩ := SearchState.Recorded.reaches (recorded_ofWalk p ceiling climbs) before
  obtain ⟨_, grown⟩ := SearchState.Recorded.reaches (recorded.iterates step) after
  exact ⟨recorded, next, step, grown⟩

theorem candidate_le_of_course {head : SearchState q n × γ}
    (starts : p.Heads limits fits x effort ceiling g head) {v : Fin n}
    (member : v ∈ head.1.examines) :
    SearchState.candidate head.1.walk.current v ≤ last.bestEnergy := by
  obtain ⟨_, next, step, grown⟩ := starts.bounded climbs path finished
  exact (SearchState.candidate_le_of_iterates step member).trans grown

theorem energy_le_of_course {y : Assignment n}
    (visits : p.Visits limits fits x effort ceiling g y) :
    q.energyWithin fits y ≤ last.bestEnergy := by
  have exact : (Tracked.ofAssignmentWithin q fits x).Exact := .ofAssignmentWithin fits x
  obtain ⟨_, grown⟩ := SearchState.Recorded.reaches (recorded_ofWalk p ceiling climbs) path
  cases visits with
  | given => exact (Walk.energy_le_of_climb climbs).trans grown
  | descent visits => exact (visits.energy_le exact climbs).trans grown
  | @move head v starts moves =>
      obtain ⟨recorded, _⟩ := starts.bounded climbs path finished
      have moved : q.energyWithin fits (head.1.walk.current.flip v).bits =
          SearchState.candidate head.1.walk.current v := (recorded.exact.energy_flip v).symm
      rw [moved]
      exact candidate_le_of_course climbs path finished starts moves.mem_examines
  | ascent starts found visits =>
      obtain ⟨recorded, next, step, later⟩ := starts.bounded climbs path finished
      exact (recorded.ascent_le step found visits).trans later

end Bounds

/-- A search that ends well returns nothing worse than what it is given. -/
theorem energy_le_of_run {found : Searched ℚ n}
    (ends : p.run limits q x effort ceiling g = some (.ok found, g')) (fits : n ≤ q.size) :
    q.energyWithin fits x ≤ q.energyWithin fits found.bits := by
  obtain ⟨_, ⟨rfl, rfl, _⟩ | ⟨walk, g₀, last, climbs, path, finished, rfl⟩⟩ := course_of_run ends
  · exact le_rfl
  · obtain ⟨recorded, _⟩ := SearchState.Recorded.reaches (recorded_ofWalk p ceiling climbs) path
    calc q.energyWithin fits x
        ≤ last.bestEnergy := energy_le_of_course climbs path finished .given
      _ = q.energyWithin fits last.best := recorded.best_eq

/-- A search that ends well reports the energy of the assignment it returns, which is one it went
through and the last of its records. No assignment that it went through is better, the given one
among them, and no energy that its scans compared with the best is greater. -/
theorem run_outcome_best {found : Searched ℚ n}
    (ends : p.run limits q x effort ceiling g = some (.ok found, g')) :
    ∃ fits : n ≤ q.size,
      q.energy found.bits = .ok found.outcome.energy ∧
      found.outcome.bestTrace.getLast? = some found.outcome.energy ∧
      p.Visits limits fits x effort ceiling g found.bits ∧
      (∀ y, p.Visits limits fits x effort ceiling g y →
        q.energyWithin fits y ≤ found.outcome.energy) ∧
      (∀ energy, p.Examines limits fits x effort ceiling g energy →
        energy ≤ found.outcome.energy) ∧
      q.energyWithin fits x ≤ found.outcome.energy := by
  obtain ⟨fits, ⟨empty, rfl, rfl⟩ | ⟨walk, g₀, last, climbs, path, finished, rfl⟩⟩ :=
    course_of_run ends
  · subst empty
    have nothing : ∀ y : Assignment 0, q.energyWithin fits y = 0 := fun _ => rfl
    refine ⟨fits, ?_, rfl, .given, ?_, ?_, ?_⟩
    · rw [Qubo.energy_of_fits fits]
      rfl
    · intro y visits
      exact (nothing y).le
    · rintro energy ⟨head, starts, v, member, value⟩
      exact v.elim0
    · exact (nothing x).le
  · obtain ⟨recorded, _⟩ := SearchState.Recorded.reaches (recorded_ofWalk p ceiling climbs) path
    have energy_eq : (last.searched effort).outcome.energy = last.bestEnergy :=
      recorded.best_eq.symm
    have visited : ∀ y, p.Visits limits fits x effort ceiling g y →
        q.energyWithin fits y ≤ last.bestEnergy := by
      intro y visits
      exact energy_le_of_course climbs path finished visits
    rw [energy_eq]
    refine ⟨fits, ?_, recorded.trace_last, visits_best climbs path, visited, ?_, visited x .given⟩
    · rw [Qubo.energy_of_fits fits]
      exact congrArg Except.ok recorded.best_eq.symm
    · rintro energy ⟨head, starts, v, member, rfl⟩
      exact candidate_le_of_course climbs path finished starts member

theorem run_outcome_best_after_detours :
    let q : Qubo ℚ := ⟨3, #v[1, -3, 1 / 2, 7, 2, -1, 7, 7, -1 / 3]⟩
    let p : TabuSearch ℚ := ⟨1, none, 2⟩
    let x : Assignment 3 := #v[true, false, false]
    let g : Scripted :=
      ⟨#[5, 0x9e3779b97f4a7c15, 0xdeadbeefcafebabe, 0x123456789abcdef0], by decide, 0⟩
    ∃ found g', p.run (Limits.uniform 40) q x Effort.zero 24 g = some (.ok found, g') ∧
      found.outcome.bestTrace = [7 / 6, 2] ∧ found.bits = #v[false, true, false] ∧
      ∃ fits : 3 ≤ q.size,
        q.energy found.bits = .ok found.outcome.energy ∧
        found.outcome.bestTrace.getLast? = some found.outcome.energy ∧
        p.Visits (Limits.uniform 40) fits x Effort.zero 24 g found.bits ∧
        (∀ y, p.Visits (Limits.uniform 40) fits x Effort.zero 24 g y →
          q.energyWithin fits y ≤ found.outcome.energy) ∧
        (∀ energy, p.Examines (Limits.uniform 40) fits x Effort.zero 24 g energy →
          energy ≤ found.outcome.energy) ∧
        q.energyWithin fits x ≤ found.outcome.energy := by
  intro q p x g
  have reported : ((p.run (Limits.uniform 40) q x Effort.zero 24 g).map fun result =>
      result.1.toOption.map fun found => (found.outcome.bestTrace, found.bits)) =
        some (some ([7 / 6, 2], #v[false, true, false])) := by
    decide +kernel
  cases ends : p.run (Limits.uniform 40) q x Effort.zero 24 g with
  | none =>
      rw [ends] at reported
      cases reported
  | some result =>
      rw [ends] at reported
      rcases result with ⟨outcome, g'⟩
      cases outcome with
      | error breakdown => cases reported
      | ok found =>
          have values := Option.some.inj (Option.some.inj reported)
          have trace_eq := congrArg Prod.fst values
          have bits_eq := congrArg Prod.snd values
          exact ⟨found, g', rfl, trace_eq, bits_eq, run_outcome_best ends⟩

end TabuSearch

end BinaryQuadratic
