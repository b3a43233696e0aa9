import BinaryQuadratic.Proofs.Climb
import BinaryQuadratic.Proofs.Iteration
import BinaryQuadratic.Proofs.Repetition

set_option autoImplicit false

/-! The course of a tabu search: the first local search, then iterations from state to state until
one is finished. Whatever the search goes through is told by the states its iterations start from. -/

namespace BinaryQuadratic

variable {α γ : Type} [Coefficient α] [Generator γ] {q : Qubo α} {n : Nat}

namespace SearchState

/-- An iteration from `s` toggles `v` itself, because it beats the best or as the nearest miss. -/
def Moves (s : SearchState q n) (v : Fin n) : Prop :=
  (∃ effort, s.scanned = .improving v effort) ∨
    ∃ energy effort, s.scanned = .exhausted (some (v, energy)) effort

def examines (s : SearchState q n) : List (Fin n) :=
  examined s.tabu s.walk.current s.bestEnergy s.order

theorem Moves.mem_examines {s : SearchState q n} {v : Fin n} (moves : s.Moves v) :
    v ∈ s.examines := by
  rcases moves with ⟨effort, found⟩ | ⟨energy, effort, found⟩
  · exact (of_scan_improving found).2.1
  · exact mem_examined_of_scan found

/-- An iteration records nothing, or an improving move and the end of the local search from there. -/
theorem Iterates.record_cases {limits : Limits} {target : Option (Target α)}
    {s s' : SearchState q n} {g g' : γ} (step : Iterates limits target s g s' g') :
    ((∀ v left, s.scanned ≠ .improving v left) ∧ s'.trace = s.trace ∧ s'.best = s.best) ∨
      ∃ v left walk g₁, s.scanned = .improving v left ∧
        Walk.climb limits ⟨s.walk.current.flip v, left⟩ g = some (.ok walk, g₁) ∧
        s'.trace = s.trace ++ [walk.current.energy] ∧ s'.best = walk.current.bits := by
  have not_improving : ∀ {held left}, s.scanned = .exhausted held left →
      ∀ v left', s.scanned ≠ .improving v left' := by
    intro held left found v left' improving
    cases found.symm.trans improving
  cases step with
  | reaches found counted climbs met => exact Or.inr ⟨_, _, _, _, found, climbs, rfl, rfl⟩
  | improves found counted climbs unmet bounded =>
      refine Or.inr ⟨_, _, _, _, found, climbs, ?_, ?_⟩
      · simp only [settled, record, countIterations]
      · simp only [settled, record]
  | diverts found counted => exact Or.inl ⟨not_improving found, rfl, rfl⟩
  | idles found => exact Or.inl ⟨not_improving found, rfl, rfl⟩

theorem Iterates.best {limits : Limits} {target : Option (Target α)} {s s' : SearchState q n}
    {g g' : γ} (step : Iterates limits target s g s' g') :
    s'.best = s.best ∨ ∃ v left, s.scanned = .improving v left ∧
      Walk.Visits limits ⟨s.walk.current.flip v, left⟩ g s'.best := by
  rcases step.record_cases with ⟨_, _, kept⟩ | ⟨v, left, walk, g₁, found, climbs, _, best_eq⟩
  · exact Or.inl kept
  · rw [best_eq]
    exact Or.inr ⟨v, left, found, Walk.visits_last climbs⟩

abbrev Proceeds (limits : Limits) (target : Option (Target α)) :
    SearchState q n × γ → SearchState q n × γ → Prop :=
  Advances isFinished (iterate limits target)

abbrev Leads (limits : Limits) (target : Option (Target α)) :
    SearchState q n × γ → SearchState q n × γ → Prop :=
  Reaches isFinished (iterate limits target)

theorem Proceeds.iterates {limits : Limits} {target : Option (Target α)}
    {a b : SearchState q n × γ} (proceeds : Proceeds limits target a b) :
    Iterates limits target a.1 a.2 b.1 b.2 :=
  iterates_of_iterate proceeds.2

/-- What every iteration from an unfinished state keeps holds all the way. -/
theorem Leads.preserves {limits : Limits} {target : Option (Target α)}
    {Holds : SearchState q n → Prop} {a b : SearchState q n × γ} (path : Leads limits target a b)
    (kept : ∀ {s s' : SearchState q n} {g g' : γ}, Holds s → s.isFinished = false →
      Iterates limits target s g s' g' → Holds s') (holds : Holds a.1) : Holds b.1 := by
  induction path with
  | refl => exact holds
  | tail _ advance ih => exact kept ih advance.1 (Proceeds.iterates advance)

/-- The state that an iteration starts from after `count` others. There is none if the search is
finished before. -/
def headAfter (limits : Limits) (target : Option (Target α)) :
    (count : Nat) → SearchState q n → Attempt γ (SearchState q n)
  | 0, s =>
    if s.isFinished then monadLift (Draw.abandoned : Draw γ (SearchState q n)) else pure s
  | count + 1, s =>
    if s.isFinished then monadLift (Draw.abandoned : Draw γ (SearchState q n))
    else do headAfter limits target count (← s.iterate limits target)

theorem leads_of_headAfter {limits : Limits} {target : Option (Target α)} {count : Nat}
    {s head : SearchState q n} {g g' : γ}
    (ends : headAfter limits target count s g = some (.ok head, g')) :
    head.isFinished = false ∧ Leads limits target (s, g) (head, g') := by
  induction count generalizing s g with
  | zero =>
      unfold headAfter at ends
      cases state : s.isFinished with
      | true =>
          rw [state] at ends
          cases ends
      | false =>
          rw [state] at ends
          cases Attempt.pure_eq_some_iff.mp ends
          exact ⟨state, .refl⟩
  | succ count ih =>
      unfold headAfter at ends
      cases state : s.isFinished with
      | true =>
          rw [state] at ends
          cases ends
      | false =>
          rw [state] at ends
          obtain ⟨next, g₁, step, rest⟩ := Attempt.bind_eq_ok_iff.mp ends
          obtain ⟨goes, path⟩ := ih rest
          exact ⟨goes, path.head ⟨state, step⟩⟩

end SearchState

namespace TabuSearch

variable (p : TabuSearch α) (limits : Limits) (fits : n ≤ q.size) (x : Assignment n)
  (effort : Effort) (ceiling : Nat) (g : γ)

/-- The states that iterations of a search start from, with their generators. -/
def Heads (head : SearchState q n × γ) : Prop :=
  head.1.isFinished = false ∧ ∃ walk g₀,
    Walk.climb limits ⟨Tracked.ofAssignmentWithin q fits x, effort⟩ g = some (.ok walk, g₀) ∧
    SearchState.Leads limits p.target (SearchState.ofWalk p ceiling walk, g₀) head

/-- The end of the first local search, and the state that an iteration starts from after `count`
others. -/
def headAfter (count : Nat) : Attempt γ (Walk q n × SearchState q n) := do
  let walk ← Walk.climb limits ⟨Tracked.ofAssignmentWithin q fits x, effort⟩
  let head ← SearchState.headAfter limits p.target count (SearchState.ofWalk p ceiling walk)
  return (walk, head)

/-- The state before an improving move, and the local search after it: the end of the first local
search, the state, the move with the effort at that moment, and where the local search ends. -/
def improvementAfter (count : Nat) :
    Attempt γ (Walk q n × SearchState q n × (Fin n × Effort) × Walk q n) := do
  let (walk, head) ← p.headAfter limits fits x effort ceiling count
  match head.scanned with
  | .improving v left =>
    let improved ← Walk.climb limits ⟨head.walk.current.flip v, left⟩
    return (walk, head, (v, left), improved)
  | .exhausted _ _ => monadLift (Draw.abandoned : Draw γ _)

/-- The assignments that a search goes through: the one it is given, those of its local searches, and
the one after each move of its own. -/
inductive Visits : Assignment n → Prop
  | given : Visits x
  | descent {y : Assignment n}
      (visits : Walk.Visits limits ⟨Tracked.ofAssignmentWithin q fits x, effort⟩ g y) : Visits y
  | move {head : SearchState q n × γ} {v : Fin n}
      (starts : p.Heads limits fits x effort ceiling g head) (moves : head.1.Moves v) :
      Visits (head.1.walk.current.flip v).bits
  | ascent {head : SearchState q n × γ} {v : Fin n} {left : Effort} {y : Assignment n}
      (starts : p.Heads limits fits x effort ceiling g head)
      (found : head.1.scanned = .improving v left)
      (visits : Walk.Visits limits ⟨head.1.walk.current.flip v, left⟩ head.2 y) : Visits y

/-- The energies that the scans of a search compare with the best. -/
def Examines (energy : α) : Prop :=
  ∃ head, p.Heads limits fits x effort ceiling g head ∧
    ∃ v ∈ head.1.examines, energy = SearchState.candidate head.1.walk.current v

variable {p limits x effort ceiling g}

/-- A search ends well when it has nothing to do, and when its first local search and the iterations
from there do. -/
theorem run_eq_ok_iff {found : Searched α n} {g' : γ} :
    p.run limits q x effort ceiling g = some (.ok found, g') ↔
      ∃ fits : n ≤ q.size,
        (n = 0 ∧ found = p.withoutVariables x effort ceiling ∧ g' = g) ∨
        0 < n ∧ ∃ walk g₀ last,
          Walk.climb limits ⟨Tracked.ofAssignmentWithin q fits x, effort⟩ g = some (.ok walk, g₀) ∧
          SearchState.iterateFrom limits p.target limits.iterations
            (SearchState.ofWalk p ceiling walk) g₀ = some (.ok last, g') ∧
          found = last.searched effort := by
  constructor
  · intro ends
    unfold run at ends
    obtain ⟨⟨fits⟩, g₁, passes, ends⟩ := Attempt.bind_eq_ok_iff.mp ends
    obtain ⟨_, rfl⟩ := Attempt.liftExcept_eq_ok_iff.mp passes
    refine ⟨fits, ?_⟩
    change (p.runWithin limits q fits x effort ceiling : Attempt γ _) g = _ at ends
    unfold runWithin at ends
    by_cases empty : n = 0
    · rw [if_pos empty] at ends
      cases Attempt.pure_eq_some_iff.mp ends
      exact Or.inl ⟨empty, rfl, rfl⟩
    · rw [if_neg empty] at ends
      obtain ⟨walk, g₀, climbs, ends⟩ := Attempt.bind_eq_ok_iff.mp ends
      obtain ⟨last, g₂, repeats, ends⟩ := Attempt.bind_eq_ok_iff.mp ends
      cases Attempt.pure_eq_some_iff.mp ends
      exact Or.inr ⟨Nat.pos_of_ne_zero empty, walk, g₀, last, climbs, repeats, rfl⟩
  · rintro ⟨fits, course⟩
    have passes : (q.checkLength n).mapError (Breakdown.mk · effort) = .ok ⟨fits⟩ := by
      rw [Qubo.checkLength_of_fits fits]
      rfl
    refine (Attempt.bind_of_ok (Attempt.liftExcept_of_ok passes g)).trans ?_
    change (p.runWithin limits q fits x effort ceiling : Attempt γ _) g = _
    unfold runWithin
    rcases course with ⟨empty, rfl, rfl⟩ | ⟨some_variable, walk, g₀, last, climbs, repeats, rfl⟩
    · rw [if_pos empty]
      rfl
    · rw [if_neg (Nat.ne_of_gt some_variable), Attempt.bind_of_ok climbs,
        Attempt.bind_of_ok repeats]
      rfl

/-- A search that ends well has nothing to do, or it goes from its first local search to a finished
state and reports that. -/
theorem course_of_run {found : Searched α n} {g' : γ}
    (ends : p.run limits q x effort ceiling g = some (.ok found, g')) :
    ∃ fits : n ≤ q.size,
      (n = 0 ∧ found = p.withoutVariables x effort ceiling ∧ g' = g) ∨
      ∃ walk g₀ last,
        Walk.climb limits ⟨Tracked.ofAssignmentWithin q fits x, effort⟩ g = some (.ok walk, g₀) ∧
        SearchState.Leads limits p.target (SearchState.ofWalk p ceiling walk, g₀) (last, g') ∧
        last.isFinished = true ∧ found = last.searched effort := by
  obtain ⟨fits, nothing | ⟨_, walk, g₀, last, climbs, repeats, same⟩⟩ := run_eq_ok_iff.mp ends
  · exact ⟨fits, Or.inl nothing⟩
  · obtain ⟨finished, path⟩ := repeatUntil.reaches repeats
    exact ⟨fits, Or.inr ⟨walk, g₀, last, climbs, path, finished, same⟩⟩

theorem run_of_course {fits : n ≤ q.size} (some_variable : 0 < n) {walk : Walk q n} {g₀ g' : γ}
    {last : SearchState q n}
    (climbs : Walk.climb limits ⟨Tracked.ofAssignmentWithin q fits x, effort⟩ g =
      some (.ok walk, g₀))
    (repeats : SearchState.iterateFrom limits p.target limits.iterations
      (SearchState.ofWalk p ceiling walk) g₀ = some (.ok last, g')) :
    p.run limits q x effort ceiling g = some (.ok (last.searched effort), g') :=
  run_eq_ok_iff.mpr ⟨fits, Or.inr ⟨some_variable, walk, g₀, last, climbs, repeats, rfl⟩⟩

theorem run_of_broken_course {fits : n ≤ q.size} (some_variable : 0 < n) {walk : Walk q n}
    {g₀ g' : γ} {failure : Breakdown}
    (climbs : Walk.climb limits ⟨Tracked.ofAssignmentWithin q fits x, effort⟩ g =
      some (.ok walk, g₀))
    (breaks : SearchState.iterateFrom limits p.target limits.iterations
      (SearchState.ofWalk p ceiling walk) g₀ = some (.error failure, g')) :
    p.run limits q x effort ceiling g = some (.error failure, g') := by
  have passes : (q.checkLength n).mapError (Breakdown.mk · effort) = .ok ⟨fits⟩ := by
    rw [Qubo.checkLength_of_fits fits]
    rfl
  refine (Attempt.bind_of_ok (Attempt.liftExcept_of_ok passes g)).trans ?_
  change (p.runWithin limits q fits x effort ceiling : Attempt γ _) g = _
  unfold runWithin
  rw [if_neg (Nat.ne_of_gt some_variable), Attempt.bind_of_ok climbs]
  exact Attempt.bind_of_error breaks

theorem energy_eq_of_run {found : Searched α n} {g' : γ}
    (ends : p.run limits q x effort ceiling g = some (.ok found, g')) (fits : n ≤ q.size) :
    found.outcome.energy = q.energyWithin fits found.bits := by
  obtain ⟨_, ⟨rfl, rfl, _⟩ | ⟨_, _, _, _, _, _, rfl⟩⟩ := course_of_run ends
  · rfl
  · rfl

variable {fits : n ≤ q.size} {walk : Walk q n} {g₀ g' : γ}

theorem visits_best
    (climbs : Walk.climb limits ⟨Tracked.ofAssignmentWithin q fits x, effort⟩ g =
      some (.ok walk, g₀)) {head : SearchState q n × γ}
    (path : SearchState.Leads limits p.target (SearchState.ofWalk p ceiling walk, g₀) head) :
    p.Visits limits fits x effort ceiling g head.1.best := by
  induction path with
  | refl => exact .descent (Walk.visits_last climbs)
  | @tail before after path advance ih =>
      have starts : p.Heads limits fits x effort ceiling g before :=
        ⟨advance.1, walk, g₀, climbs, path⟩
      rcases (SearchState.Proceeds.iterates advance).best with same | ⟨v, left, found, visits⟩
      · rw [same]
        exact ih
      · exact .ascent starts found visits

theorem heads_of_headAfter {count : Nat} {head : SearchState q n}
    (ends : p.headAfter limits fits x effort ceiling count g = some (.ok (walk, head), g')) :
    ∃ g₀, Walk.climb limits ⟨Tracked.ofAssignmentWithin q fits x, effort⟩ g = some (.ok walk, g₀) ∧
      p.Heads limits fits x effort ceiling g (head, g') := by
  obtain ⟨walk', g₀, climbs, ends⟩ := Attempt.bind_eq_ok_iff.mp ends
  obtain ⟨head', g₁, steps, ends⟩ := Attempt.bind_eq_ok_iff.mp ends
  cases Attempt.pure_eq_some_iff.mp ends
  obtain ⟨goes, path⟩ := SearchState.leads_of_headAfter steps
  exact ⟨g₀, climbs, goes, walk, g₀, climbs, path⟩

theorem of_improvementAfter {count : Nat} {head : SearchState q n} {v : Fin n} {left : Effort}
    {improved : Walk q n}
    (ends : p.improvementAfter limits fits x effort ceiling count g =
      some (.ok (walk, head, (v, left), improved), g')) :
    ∃ g₀ g₁,
      Walk.climb limits ⟨Tracked.ofAssignmentWithin q fits x, effort⟩ g = some (.ok walk, g₀) ∧
      p.Heads limits fits x effort ceiling g (head, g₁) ∧ head.scanned = .improving v left ∧
      Walk.climb limits ⟨head.walk.current.flip v, left⟩ g₁ = some (.ok improved, g') := by
  obtain ⟨⟨walk', head'⟩, g₁, before, ends⟩ := Attempt.bind_eq_ok_iff.mp ends
  cases found : head'.scanned with
  | improving u left' =>
      simp only [found] at ends
      obtain ⟨improved', g₂, ascends, ends⟩ := Attempt.bind_eq_ok_iff.mp ends
      cases Attempt.pure_eq_some_iff.mp ends
      obtain ⟨g₀, climbs, starts⟩ := heads_of_headAfter before
      exact ⟨g₀, g₁, climbs, starts, found, ascends⟩
  | exhausted nearest left' =>
      simp only [found] at ends
      cases ends

theorem Heads.leads {head : SearchState q n × γ}
    (starts : p.Heads limits fits x effort ceiling g head)
    (climbs : Walk.climb limits ⟨Tracked.ofAssignmentWithin q fits x, effort⟩ g =
      some (.ok walk, g₀)) :
    SearchState.Leads limits p.target (SearchState.ofWalk p ceiling walk, g₀) head := by
  obtain ⟨_, walk', g₁, climbs', path⟩ := starts
  cases climbs.symm.trans climbs'
  exact path

theorem Heads.onward {head later : SearchState q n × γ}
    (starts : p.Heads limits fits x effort ceiling g head)
    (path : SearchState.Leads limits p.target head later) (goes : later.1.isFinished = false) :
    p.Heads limits fits x effort ceiling g later := by
  obtain ⟨_, walk, g₀, climbs, before⟩ := starts
  exact ⟨goes, walk, g₀, climbs, before.trans path⟩

/-- Of two states that iterations start from, one is on the way from the other. -/
theorem Heads.total {head other : SearchState q n × γ}
    (starts : p.Heads limits fits x effort ceiling g head)
    (starts' : p.Heads limits fits x effort ceiling g other) :
    SearchState.Leads limits p.target head other ∨ SearchState.Leads limits p.target other head := by
  obtain ⟨_, walk, g₀, climbs, path⟩ := starts
  exact Reaches.total path (starts'.leads climbs)

/-- In a search that goes from its first local search to a finished state, every state that an
iteration starts from has a next one on the way to the end. -/
theorem Heads.next {head : SearchState q n × γ} {last : SearchState q n}
    (starts : p.Heads limits fits x effort ceiling g head)
    (climbs : Walk.climb limits ⟨Tracked.ofAssignmentWithin q fits x, effort⟩ g =
      some (.ok walk, g₀))
    (path : SearchState.Leads limits p.target (SearchState.ofWalk p ceiling walk, g₀) (last, g'))
    (finished : last.isFinished = true) :
    SearchState.Leads limits p.target (SearchState.ofWalk p ceiling walk, g₀) head ∧
      ∃ next, SearchState.Proceeds limits p.target head next ∧
        SearchState.Leads limits p.target next (last, g') := by
  have before := starts.leads climbs
  exact ⟨before, before.next_of_unfinished starts.1 path finished⟩

end TabuSearch

end BinaryQuadratic
