import BinaryQuadratic.Proofs.Repetition
import BinaryQuadratic.Solver

set_option autoImplicit false

/-! The course of the solver: a first search of the whole problem, and passes that each change what is
held and search the whole problem again. Between two passes the solver holds what one of its
searches returned, and none of the searches so far returned better. -/

namespace BinaryQuadratic

variable {α γ : Type} [Coefficient α] [Generator γ] {n : Nat}

/-- The assignment that the next pass starts from is the best, and both are what a search returned. -/
structure Progress.Holds (s : Progress α n) (found : Searched α n) : Prop where
  current_eq : s.current = found.bits
  best_eq : s.best = found.bits
  energy_eq : s.bestEnergy = found.outcome.energy

namespace Solver

section Course

variable (limits : Limits) (p : Parameters α) (work : Qubo α) (g : γ)

abbrev Leads : Progress α n × γ → Progress α n × γ → Prop :=
  Reaches (isFinished p) (pass limits p work)

/-- The first search, from a random assignment. -/
def Begins (found : Searched α n) (g' : γ) : Prop :=
  searchWhole limits p work (randomAssignment n g).1 (randomAssignment n g).2 = some (.ok found, g')

/-- The states after the first search and after each pass, with their generators. -/
def Attains (state : Progress α n × γ) : Prop :=
  ∃ found g₀, Begins limits p work g found g₀ ∧ Leads limits p work (started found, g₀) state

/-- What the searches of the whole problem return: the first one, and the one of each pass. -/
inductive Searches : Searched α n → Prop
  | first {found : Searched α n} {g₀ : γ} (begins : Begins limits p work g found g₀) :
      Searches found
  | again {s : Progress α n} {x : Assignment n} {spent : Nat} {found : Searched α n} {g₁ g₂ g₃ : γ}
      (attained : Attains limits p work g (s, g₁))
      (goes : isFinished p s = false)
      (changes : diversify limits p work s.current g₁ = some (.ok (x, spent), g₂))
      (ends : searchWhole limits p work x g₂ = some (.ok found, g₃)) :
      Searches found

end Course

variable {limits : Limits} {p : Parameters α} {work : Qubo α} {g g' g₀ : γ}

theorem Begins.unique {found again : Searched α n} {g₁ : γ}
    (begins : Begins limits p work g found g₀) (begins' : Begins limits p work g again g₁) :
    found = again ∧ g₀ = g₁ := by
  have same := begins.symm.trans begins'
  rw [Option.some.injEq, Prod.mk.injEq, Except.ok.injEq] at same
  exact same

theorem exists_of_pass {s s' : Progress α n}
    (ends : pass limits p work s g = some (.ok s', g')) :
    ∃ x spent found g₁,
      diversify limits p work s.current g = some (.ok (x, spent), g₁) ∧
      searchWhole limits p work x g₁ = some (.ok found, g') ∧ s' = judge s spent found := by
  unfold pass at ends
  obtain ⟨⟨x, spent⟩, g₁, changes, ends⟩ := Attempt.bind_eq_ok_iff.mp ends
  obtain ⟨found, g₂, searches, ends⟩ := Attempt.bind_eq_ok_iff.mp ends
  cases Attempt.pure_eq_some_iff.mp ends
  exact ⟨x, spent, found, g₁, changes, searches, rfl⟩

/-- A solver that ends well has valid parameters, goes from its first search to a finished state and
returns the best of that. -/
theorem course_of_solve {q : Qubo α} {solution : Solution α q.size}
    (ends : solve limits p q g = some (.ok solution, g')) :
    p.check = .ok () ∧ ∃ found g₀ last,
      Begins limits p (p.maximized q) g found g₀ ∧
      Leads limits p (p.maximized q) (started found, g₀) (last, g') ∧
      isFinished p last = true ∧ solution = finished p last := by
  unfold solve at ends
  obtain ⟨_, g₁, passes, ends⟩ := Attempt.bind_eq_ok_iff.mp ends
  obtain ⟨checked, rfl⟩ := Attempt.liftExcept_eq_ok_iff.mp passes
  obtain ⟨last, g₂, courses, ends⟩ := Attempt.bind_eq_ok_iff.mp ends
  cases Attempt.pure_eq_some_iff.mp ends
  have valid : p.check = .ok () := by
    cases check : p.check with
    | error failure =>
        rw [check] at checked
        cases checked
    | ok valid => rfl
  have courses := Attempt.adapt_eq_ok_iff.mp courses
  unfold course at courses
  obtain ⟨x, g₃, draws, courses⟩ := Attempt.bind_eq_ok_iff.mp courses
  have drawn : randomAssignment q.size g = (x, g₃) :=
    Option.some.inj (Attempt.lift_eq_ok_iff.mp draws)
  obtain ⟨found, g₀, searches, repeats⟩ := Attempt.bind_eq_ok_iff.mp courses
  obtain ⟨finished, path⟩ := repeatUntil.reaches repeats
  have begins : Begins limits p (p.maximized q) g found g₀ := by
    unfold Begins
    rw [drawn]
    exact searches
  exact ⟨valid, found, g₀, last, begins, path, finished, rfl⟩

theorem solve_of_course {q : Qubo α} {found : Searched α q.size} {last : Progress α q.size}
    (valid : p.check = .ok ()) (begins : Begins limits p (p.maximized q) g found g₀)
    (repeats : passesFrom limits p (p.maximized q) limits.passes (started found) g₀ =
      some (.ok last, g')) :
    solve limits p q g = some (.ok (finished p last), g') := by
  have checked : p.check.mapError SolveError.invalidParameter = .ok () := by
    rw [valid]
    rfl
  have drawn : (liftM (Draw.total (randomAssignment q.size) : Draw γ (Assignment q.size)) :
      ExceptT Fault (Draw γ) _) g = some (.ok (randomAssignment q.size g).1,
        (randomAssignment q.size g).2) :=
    Attempt.lift_of_some rfl
  have courses : course limits p (p.maximized q) q.size g = some (.ok last, g') :=
    (Attempt.bind_of_ok drawn).trans ((Attempt.bind_of_ok begins).trans repeats)
  refine (Attempt.bind_of_ok (Attempt.liftExcept_of_ok checked g)).trans ?_
  exact Attempt.bind_of_ok (Attempt.adapt_eq_ok_iff.mpr courses)

theorem judge_of_better {s : Progress α n} {spent : Nat} {found : Searched α n}
    (better : s.bestEnergy < found.outcome.energy) : (judge s spent found).Holds found := by
  unfold judge
  rw [if_pos better]
  exact ⟨rfl, rfl, rfl⟩

theorem judge_of_not_better {s : Progress α n} {spent : Nat} {held found : Searched α n}
    (holds : s.Holds held) (misses : ¬s.bestEnergy < found.outcome.energy) :
    (judge s spent found).Holds held := by
  unfold judge
  rw [if_neg misses]
  exact ⟨holds.best_eq, holds.best_eq, holds.energy_eq⟩

theorem holds_of_leads {found : Searched α n} (begins : Begins limits p work g found g₀)
    {state : Progress α n × γ} (path : Leads limits p work (started found, g₀) state) :
    ∃ held, Searches limits p work g held ∧ state.1.Holds held := by
  induction path with
  | refl => exact ⟨found, .first begins, rfl, rfl, rfl⟩
  | @tail before after path advance ih =>
      obtain ⟨held, searched, holds⟩ := ih
      obtain ⟨x, spent, again, g₁, changes, ends, judged⟩ := exists_of_pass advance.2
      rw [judged]
      by_cases better : before.1.bestEnergy < again.outcome.energy
      · have attained : Attains limits p work g before := ⟨found, g₀, begins, path⟩
        exact ⟨again, .again attained advance.1 changes ends, judge_of_better better⟩
      · exact ⟨held, searched, judge_of_not_better holds better⟩

section Order

variable (irreflexive : ∀ a : α, ¬a < a) (transitive : ∀ a b c : α, a < b → b < c → a < c)

include irreflexive in
theorem not_lt_judge (s : Progress α n) (spent : Nat) (found : Searched α n) :
    ¬(judge s spent found).bestEnergy < found.outcome.energy := by
  by_cases better : s.bestEnergy < found.outcome.energy
  · rw [(judge_of_better better).energy_eq]
    exact irreflexive _
  · unfold judge
    rw [if_neg better]
    exact better

include transitive in
/-- An energy that does not beat what is held does not beat what is held later. -/
theorem not_lt_of_leads {a b : Progress α n × γ} (path : Leads limits p work a b) {energy : α}
    (misses : ¬a.1.bestEnergy < energy) : ¬b.1.bestEnergy < energy := by
  induction path with
  | refl => exact misses
  | @tail before after _ advance ih =>
      obtain ⟨x, spent, found, g₁, _, _, judged⟩ := exists_of_pass advance.2
      rw [judged]
      by_cases better : before.1.bestEnergy < found.outcome.energy
      · rw [(judge_of_better better).energy_eq]
        intro beats
        exact ih (transitive _ _ _ better beats)
      · unfold judge
        rw [if_neg better]
        exact ih

include irreflexive transitive in
theorem not_lt_of_searches {found : Searched α n} (begins : Begins limits p work g found g₀)
    {last : Progress α n} (path : Leads limits p work (started found, g₀) (last, g'))
    (finished : isFinished p last = true) {searched : Searched α n}
    (searches : Searches limits p work g searched) :
    ¬last.bestEnergy < searched.outcome.energy := by
  cases searches with
  | first begins' =>
      obtain ⟨rfl, rfl⟩ := begins.unique begins'
      exact not_lt_of_leads transitive path (irreflexive _)
  | again attained goes changes ends =>
      obtain ⟨_, _, begins', before⟩ := attained
      obtain ⟨rfl, rfl⟩ := begins.unique begins'
      obtain ⟨next, advance, after⟩ := before.next_of_unfinished goes path finished
      obtain ⟨x, spent, again, g₁, changes', ends', judged⟩ := exists_of_pass advance.2
      rw [changes] at changes'
      cases changes'
      rw [ends] at ends'
      cases ends'
      apply not_lt_of_leads transitive after
      rw [judged]
      exact not_lt_judge irreflexive _ _ _

end Order

end Solver

end BinaryQuadratic
