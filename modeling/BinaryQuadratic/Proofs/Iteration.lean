import BinaryQuadratic.Proofs.Attempt
import BinaryQuadratic.Proofs.Scan

set_option autoImplicit false

/-! What one iteration of the tabu search can do: four kinds of it, and no other. -/

namespace BinaryQuadratic.SearchState

variable {α γ : Type} [Coefficient α] [Generator γ] {q : Qubo α} {n : Nat}

def scanned (s : SearchState q n) : Scan α n :=
  scan s.tabu s.walk.current s.bestEnergy s.order none s.walk.effort

def settled (s : SearchState q n) (v : Fin n) (g : γ) : SearchState q n :=
  { s with tabu := s.tabu.relax.arm v (Generator.coin g).1 }

def diverted (s : SearchState q n) (v : Fin n) (effort : Effort) : SearchState q n :=
  { s with walk := ⟨s.walk.current.flip v, effort⟩, moves := s.moves + 1 }

/-- An iteration from a state and a generator to the state and the generator after it. -/
inductive Iterates (limits : Limits) (target : Option (Target α)) (s : SearchState q n) (g : γ) :
    SearchState q n → γ → Prop
  | reaches {v : Fin n} {effort : Effort} {walk : Walk q n} {g' : γ}
      (found : s.scanned = .improving v effort)
      (counted : effort.checked = .ok ())
      (climbs : Walk.climb limits ⟨s.walk.current.flip v, effort⟩ g = some (.ok walk, g'))
      (met : Target.reached target walk.current.energy = true) :
      Iterates limits target s g
        { (s.countIterations 1).record walk with targetReached := true } g'
  | improves {v : Fin n} {effort : Effort} {walk : Walk q n} {g' : γ}
      (found : s.scanned = .improving v effort)
      (counted : effort.checked = .ok ())
      (climbs : Walk.climb limits ⟨s.walk.current.flip v, effort⟩ g = some (.ok walk, g'))
      (unmet : Target.reached target walk.current.energy = false)
      (bounded : (s.budget.improved walk.effort).checked walk.effort = .ok ()) :
      Iterates limits target s g
        (settled { (s.countIterations 1).record walk with
          budget := s.budget.improved walk.effort } v g')
        (Generator.coin g').2
  | diverts {v : Fin n} {energy : α} {effort : Effort}
      (found : s.scanned = .exhausted (some (v, energy)) effort)
      (counted : effort.checked = .ok ()) :
      Iterates limits target s g (settled ((s.countIterations 1).diverted v effort) v g)
        (Generator.coin g).2
  | idles {effort : Effort} (found : s.scanned = .exhausted none effort) :
      Iterates limits target s g (s.countIterations 1).idle g

omit [Coefficient α] in
theorem settle_apply (s : SearchState q n) (v : Fin n) (g : γ) :
    settle s v g = some (.ok (s.settled v g), (Generator.coin g).2) := rfl

theorem iterates_of_iterate {limits : Limits} {target : Option (Target α)} {s s' : SearchState q n}
    {g g' : γ} (ends : s.iterate limits target g = some (.ok s', g')) :
    Iterates limits target s g s' g' := by
  have scans : scan s.tabu s.walk.current s.bestEnergy s.order none s.walk.effort = s.scanned :=
    rfl
  unfold iterate at ends
  simp only [countIterations, scans] at ends
  cases found : s.scanned with
  | improving v effort =>
      simp only [found] at ends
      obtain ⟨_, g₁, passes, ends⟩ := Attempt.bind_eq_ok_iff.mp ends
      obtain ⟨counted, rfl⟩ := Attempt.liftExcept_eq_ok_iff.mp passes
      obtain ⟨walk, g₂, climbs, ends⟩ := Attempt.bind_eq_ok_iff.mp ends
      cases met : Target.reached target walk.current.energy with
      | true =>
          simp only [met, if_true] at ends
          cases Attempt.pure_eq_some_iff.mp ends
          exact .reaches found counted climbs met
      | false =>
          simp only [met, Bool.false_eq_true, if_false] at ends
          obtain ⟨_, g₃, passes, ends⟩ := Attempt.bind_eq_ok_iff.mp ends
          obtain ⟨bounded, rfl⟩ := Attempt.liftExcept_eq_ok_iff.mp passes
          rw [settle_apply] at ends
          cases ends
          exact .improves found counted climbs met bounded
  | exhausted nearMiss effort =>
      cases nearMiss with
      | none =>
          simp only [found] at ends
          cases Attempt.pure_eq_some_iff.mp ends
          exact .idles found
      | some held =>
          simp only [found] at ends
          obtain ⟨_, g₁, passes, ends⟩ := Attempt.bind_eq_ok_iff.mp ends
          obtain ⟨counted, rfl⟩ := Attempt.liftExcept_eq_ok_iff.mp passes
          unfold divert at ends
          rw [settle_apply] at ends
          cases ends
          exact .diverts found counted

theorem iterate_of_iterates {limits : Limits} {target : Option (Target α)} {s s' : SearchState q n}
    {g g' : γ} (step : Iterates limits target s g s' g') :
    s.iterate limits target g = some (.ok s', g') := by
  have scans : scan s.tabu s.walk.current s.bestEnergy s.order none s.walk.effort = s.scanned :=
    rfl
  unfold iterate
  simp only [countIterations, scans]
  cases step with
  | reaches found counted climbs met =>
      simp only [found]
      refine (Attempt.bind_of_ok (Attempt.liftExcept_of_ok counted g)).trans ?_
      refine (Attempt.bind_of_ok climbs).trans ?_
      simp only [met, if_true]
      rfl
  | improves found counted climbs unmet bounded =>
      simp only [found]
      refine (Attempt.bind_of_ok (Attempt.liftExcept_of_ok counted g)).trans ?_
      refine (Attempt.bind_of_ok climbs).trans ?_
      simp only [unmet, Bool.false_eq_true, if_false]
      exact Attempt.bind_of_ok (Attempt.liftExcept_of_ok bounded _)
  | diverts found counted =>
      simp only [found]
      exact Attempt.bind_of_ok (Attempt.liftExcept_of_ok counted g)
  | idles found =>
      simp only [found]
      rfl

end BinaryQuadratic.SearchState
