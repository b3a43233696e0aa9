import BinaryQuadratic.Proofs.Course
import BinaryQuadratic.Proofs.IdleSkip
import BinaryQuadratic.Proofs.Shares
import BinaryQuadratic.Proofs.Sweeps
import BinaryQuadratic.Random.Scripted

set_option autoImplicit false

/-! How long a tabu search can last. An iteration spends effort, or it passes over a time in which
every variable is forbidden and leaves one of them free. So at least every second iteration spends
effort, and the ceiling on the effort moves up no more often than there are extensions. -/

namespace BinaryQuadratic

variable {α γ : Type} [Coefficient α] [Generator γ] {q : Qubo α} {n : Nat}

namespace Walk

variable {limits : Limits} {start last : Walk q n} {g g' : γ}

theorem total_of_climbFrom {redraws sweeps : Nat} {order : Vector (Fin n) n}
    (ends : climbFrom redraws sweeps order start g = some (.ok last, g')) :
    start.effort.total ≤ last.effort.total ∧ last.effort.total ≤ greatestWord := by
  obtain ⟨orders, climbs⟩ := climbs_of_climbFrom ends
  refine ⟨?_, climbs.total_le_greatestWord⟩
  rw [climbs.last_eq, total_foldl_examine]
  exact Nat.le_add_right _ _

/-- A local search counts on from the effort it begins with, and not past the greatest word. -/
theorem total_of_climb (ends : climb limits start g = some (.ok last, g')) :
    start.effort.total ≤ last.effort.total ∧ last.effort.total ≤ greatestWord :=
  total_of_climbFrom ends

end Walk

namespace SearchState

variable {limits : Limits} {target : Option (Target α)} {s s' : SearchState q n} {g g' : γ}

theorem total_lt_of_improving {v : Fin n} {left : Effort} (found : s.scanned = .improving v left) :
    s.walk.effort.total < left.total := by
  rcases scan_spec s.tabu s.walk.current s.bestEnergy s.order none s.walk.effort with
    ⟨passed, u, listed, _, _, ends⟩ | ⟨_, ends⟩
  · rw [scanned, ends, listed, List.length_append] at found
    cases found
    exact Nat.lt_add_of_pos_right (Nat.succ_pos _)
  · rw [scanned, ends] at found
    cases found

theorem total_lt_of_exhausted {nearest : Fin n × α} {left : Effort}
    (found : s.scanned = .exhausted (some nearest) left) :
    s.walk.effort.total < left.total := by
  have member := mem_examined_of_scan found
  rcases scan_spec s.tabu s.walk.current s.bestEnergy s.order none s.walk.effort with
    ⟨passed, u, listed, _, _, ends⟩ | ⟨_, ends⟩
  · rw [scanned, ends] at found
    cases found
  · rw [scanned, ends, Scan.exhausted.injEq] at found
    rw [← found.2]
    exact Nat.lt_add_of_pos_right (List.length_pos_of_mem member)

omit [Coefficient α] in
theorem shortest_idle (s : SearchState q n) (v : Fin n) : s.idle.tabu.shortest = 0 := by
  obtain ⟨u, least⟩ := s.tabu.exists_get_eq_shortest v
  have bound := s.idle.tabu.shortest_le u
  have count : s.idle.tabu.countdown.get u = s.tabu.countdown.get u - s.tabu.shortest :=
    s.tabu.get_lowered s.tabu.shortest u
  omega

/-- Two iterations for each unit of effort up to the bound, and one more while every variable is
forbidden. -/
def iterationsLeft (bound : Nat) (s : SearchState q n) : Nat :=
  2 * (bound - s.walk.effort.total) + min s.tabu.shortest 1

theorem Iterates.spends_or_idles (step : Iterates limits target s g s' g') :
    s.walk.effort.total < s'.walk.effort.total ∨
      ∃ left, s.scanned = .exhausted none left ∧ s' = (s.countIterations 1).idle := by
  cases step with
  | reaches found counted climbs met =>
      exact Or.inl (Nat.lt_of_lt_of_le (total_lt_of_improving found) (Walk.total_of_climb climbs).1)
  | improves found counted climbs unmet bounded =>
      exact Or.inl (Nat.lt_of_lt_of_le (total_lt_of_improving found) (Walk.total_of_climb climbs).1)
  | diverts found counted => exact Or.inl (total_lt_of_exhausted found)
  | idles found => exact Or.inr ⟨_, found, rfl⟩

theorem Iterates.iterationsLeft_lt {bound : Nat} (step : Iterates limits target s g s' g')
    (ranked : s.Ranked) (v : Fin n) (below : s.walk.effort.total < bound) :
    s'.iterationsLeft bound < s.iterationsLeft bound := by
  unfold iterationsLeft
  rcases step.spends_or_idles with spent | ⟨left, found, rfl⟩
  · omega
  · -- Nothing is spent, but a variable is free afterwards, so the next iteration spends.
    have blocked : s.Blocked := fun u => scan_empty_iff.mp ⟨left, found⟩ u (ranked u)
    have lasting : 0 < s.tabu.shortest := (s.blocked_iff v).mp blocked
    have free := (s.countIterations 1).shortest_idle v
    have unspent : (s.countIterations 1).idle.walk.effort = s.walk.effort := rfl
    rw [free, unspent]
    omega

end SearchState

/-! ### The ceiling -/

namespace Budget

/-- `b` after `count` extensions of `first`. -/
structure Extends (first b : Budget) (count : Nat) : Prop where
  ceiling_eq : b.ceiling = first.ceiling + count * first.increment
  window_eq : b.window = first.window + count * first.increment
  increment_eq : b.increment = first.increment
  left_eq : b.extensionsLeft + count = first.extensionsLeft

variable {first b : Budget} {count : Nat}

theorem Extends.refl (first : Budget) : first.Extends first 0 :=
  ⟨by rw [Nat.zero_mul, Nat.add_zero], by rw [Nat.zero_mul, Nat.add_zero], rfl, rfl⟩

theorem Extends.improved (extension : first.Extends b count) (effort : Effort) :
    first.Extends (b.improved effort) count ∨ first.Extends (b.improved effort) (count + 1) := by
  obtain ⟨ceiling_eq, window_eq, increment_eq, left_eq⟩ := extension
  unfold Budget.improved
  by_cases late : extendAfter ≤ b.usedShare effort ∧ 0 < b.extensionsLeft
  · rw [if_pos late]
    refine Or.inr ⟨?_, ?_, increment_eq, ?_⟩
    · rw [Nat.succ_mul, ← Nat.add_assoc, ← ceiling_eq, ← increment_eq]
    · rw [Nat.succ_mul, ← Nat.add_assoc, ← window_eq, ← increment_eq]
    · have some_left := late.2
      change b.extensionsLeft - 1 + (count + 1) = _
      omega
  · rw [if_neg late]
    exact Or.inl ⟨ceiling_eq, window_eq, increment_eq, left_eq⟩

theorem Extends.ceiling_le (extension : first.Extends b count) :
    b.ceiling ≤ first.ceiling + first.extensionsLeft * first.increment := by
  have few : count ≤ first.extensionsLeft := by
    have := extension.left_eq
    omega
  rw [extension.ceiling_eq]
  exact Nat.add_le_add_left (Nat.mul_le_mul_right _ few) _

end Budget

namespace SearchState

variable {limits : Limits} {target : Option (Target α)} {s s' : SearchState q n} {g g' : γ}

/-- The budget has been extended from the first one, at most once for each record after the first. -/
def Extended (first : Budget) (s : SearchState q n) : Prop :=
  ∃ count, first.Extends s.budget count ∧ count < s.trace.length

/-- The budget only changes with a new record. -/
theorem Iterates.budget_cases (step : Iterates limits target s g s' g') :
    s'.budget = s.budget ∧ s.trace.length ≤ s'.trace.length ∨
      ∃ effort, s'.budget = s.budget.improved effort ∧
        s'.trace.length = s.trace.length + 1 := by
  have recorded : ∀ walk : Walk q n,
      (s.trace ++ [walk.current.energy]).length = s.trace.length + 1 := fun walk => by
    rw [List.length_append, List.length_singleton]
  cases step with
  | @reaches _ _ walk _ found counted climbs met =>
      refine Or.inl ⟨rfl, ?_⟩
      change s.trace.length ≤ (s.trace ++ [walk.current.energy]).length
      rw [recorded]
      exact Nat.le_succ _
  | @improves _ _ walk _ found counted climbs unmet bounded =>
      refine Or.inr ⟨walk.effort, ?_, recorded walk⟩
      simp only [settled]
  | diverts found counted => exact Or.inl ⟨rfl, Nat.le_refl _⟩
  | idles found => exact Or.inl ⟨rfl, Nat.le_refl _⟩

/-- An improving move whose local search returns without reaching the target gives the next state, as
long as the ceiling stays within a word. -/
theorem exists_proceeds_of_improving {head : SearchState q n × γ} (goes : head.1.isFinished = false)
    {v : Fin n} {left : Effort} (found : head.1.scanned = .improving v left) {walk : Walk q n}
    {g₁ : γ}
    (climbs : Walk.climb limits ⟨head.1.walk.current.flip v, left⟩ head.2 = some (.ok walk, g₁))
    (unmet : Target.reached target walk.current.energy = false)
    (within : (head.1.budget.improved walk.effort).ceiling ≤ greatestWord) :
    ∃ next, Proceeds limits target head next ∧ next.1.walk = walk ∧
      next.1.budget = head.1.budget.improved walk.effort := by
  obtain ⟨onward, below⟩ := Walk.total_of_climb climbs
  have counted := (Effort.checked_eq_ok_iff left).mpr (Nat.le_trans onward below)
  have step := iterate_of_iterates (.improves found counted climbs unmet (if_pos within))
  refine ⟨(_, _), ⟨goes, step⟩, rfl, ?_⟩
  dsimp only

theorem Extended.iterates {first : Budget} (extended : s.Extended first)
    (step : Iterates limits target s g s' g') : s'.Extended first := by
  obtain ⟨count, extension, few⟩ := extended
  unfold Extended
  rcases step.budget_cases with ⟨unchanged, longer⟩ | ⟨effort, changed, longer⟩
  · rw [unchanged]
    exact ⟨count, extension, Nat.lt_of_lt_of_le few longer⟩
  · rw [changed, longer]
    rcases extension.improved effort with same | more
    · exact ⟨count, same, Nat.lt_succ_of_lt few⟩
    · exact ⟨count + 1, more, Nat.succ_lt_succ few⟩

/-- Nothing breaks off the iteration from `s`: its local search returns, or the variables that it
examines are counted within a word. -/
structure Sustained (limits : Limits) (s : SearchState q n) (g : γ) : Prop where
  climbs : ∀ v left, s.scanned = .improving v left →
    ∃ walk g', Walk.climb limits ⟨s.walk.current.flip v, left⟩ g = some (.ok walk, g')
  counted : ∀ nearest left, s.scanned = .exhausted (some nearest) left → left.total ≤ greatestWord

/-- The improvement from `s` moves the ceiling past the greatest word. -/
def Overruns (limits : Limits) (target : Option (Target α)) (s : SearchState q n) (g : γ)
    (walk : Walk q n) : Prop :=
  ∃ v left g', s.scanned = .improving v left ∧
    Walk.climb limits ⟨s.walk.current.flip v, left⟩ g = some (.ok walk, g') ∧
    Target.reached target walk.current.energy = false ∧
    greatestWord < (s.budget.improved walk.effort).ceiling

theorem Sustained.exists_iterate_eq (sustained : Sustained limits s g) (target : Option (Target α))
    (fitting : ∀ walk, ¬Overruns limits target s g walk) :
    ∃ s' g', s.iterate limits target g = some (.ok s', g') := by
  cases found : s.scanned with
  | improving v left =>
      obtain ⟨walk, g₁, climbs⟩ := sustained.climbs v left found
      obtain ⟨onward, within⟩ := Walk.total_of_climb climbs
      have counted := (Effort.checked_eq_ok_iff left).mpr (Nat.le_trans onward within)
      cases met : Target.reached target walk.current.energy with
      | true => exact ⟨_, _, iterate_of_iterates (.reaches found counted climbs met)⟩
      | false =>
          have low : (s.budget.improved walk.effort).ceiling ≤ greatestWord := by
            apply Nat.le_of_not_lt
            intro past
            exact fitting walk ⟨v, left, g₁, found, climbs, met, past⟩
          exact ⟨_, _, iterate_of_iterates (.improves found counted climbs met (if_pos low))⟩
  | exhausted nearest left =>
      cases nearest with
      | none => exact ⟨_, _, iterate_of_iterates (.idles found)⟩
      | some nearest =>
          have counted := (Effort.checked_eq_ok_iff left).mpr (sustained.counted nearest left found)
          exact ⟨_, _, iterate_of_iterates (.diverts found counted)⟩

theorem Extended.not_overruns {first : Budget} (extended : s.Extended first)
    (bounded : first.ceiling + first.extensionsLeft * first.increment ≤ greatestWord)
    (walk : Walk q n) : ¬Overruns limits target s g walk := by
  rintro ⟨v, left, g', found, climbs, unmet, past⟩
  obtain ⟨count, extension, _⟩ := extended
  rcases extension.improved walk.effort with same | more
  · have low := same.ceiling_le
    omega
  · have low := more.ceiling_le
    omega

theorem sustained_of_improving {v : Fin n} {left : Effort} {walk : Walk q n}
    (found : s.scanned = .improving v left)
    (climbs : Walk.climb limits ⟨s.walk.current.flip v, left⟩ g = some (.ok walk, g')) :
    Sustained limits s g := by
  constructor
  · intro u left' found'
    cases found.symm.trans found'
    exact ⟨walk, g', climbs⟩
  · intro nearest left' found'
    cases found.symm.trans found'

theorem Iterates.sustained (step : Iterates limits target s g s' g') : Sustained limits s g := by
  cases step with
  | reaches found counted climbs met => exact sustained_of_improving found climbs
  | improves found counted climbs unmet bounded => exact sustained_of_improving found climbs
  | diverts found counted =>
      constructor
      · intro u left found'
        cases found.symm.trans found'
      · intro nearest left found'
        cases found.symm.trans found'
        exact (Effort.checked_eq_ok_iff _).mp counted
  | idles found =>
      constructor
      · intro u left found'
        cases found.symm.trans found'
      · intro nearest left found'
        cases found.symm.trans found'

omit [Coefficient α] in
theorem total_lt_ceiling_of_unfinished (goes : s.isFinished = false) :
    s.walk.effort.total < s.budget.ceiling := by
  simp only [isFinished, Budget.isSpent, Bool.or_eq_false_iff, decide_eq_false_iff_not,
    Nat.not_le] at goes
  exact goes.2

/-- What holds of every state on the way from the start. -/
theorem Leads.holds {first : Budget} {a b : SearchState q n × γ} (path : Leads limits target a b)
    (ranked : a.1.Ranked) (extended : a.1.Extended first) :
    b.1.Ranked ∧ b.1.Extended first ∧ a.1.walk.effort.total ≤ b.1.walk.effort.total := by
  induction path with
  | refl => exact ⟨ranked, extended, Nat.le_refl _⟩
  | tail _ advance ih =>
      obtain ⟨ranked, extended, grown⟩ := ih
      have step := Proceeds.iterates advance
      refine ⟨ranked.iterates step, extended.iterates step, ?_⟩
      rcases step.spends_or_idles with spent | ⟨_, _, idled⟩
      · exact Nat.le_trans grown (Nat.le_of_lt spent)
      · rw [idled]
        exact grown

end SearchState

theorem TabuList.shortest_empty (tenure : Nat) (v : Fin n) : (empty n tenure).shortest = 0 := by
  have bound := (empty n tenure).shortest_le v
  have zero : (empty n tenure).countdown.get v = 0 := Vector.getElem_replicate v.isLt
  omega

namespace TabuSearch

variable {p : TabuSearch α} {limits : Limits} {fits : n ≤ q.size} {x : Assignment n}
  {effort : Effort} {ceiling : Nat} {g g₀ g' : γ} {walk : Walk q n}

theorem extended_ofWalk (p : TabuSearch α) (ceiling : Nat) (walk : Walk q n) :
    (SearchState.ofWalk p ceiling walk).Extended
      (Budget.ofCeiling ceiling walk.effort p.maxExtensions) :=
  ⟨0, .refl _, Nat.zero_lt_one⟩

/-- The iterations that a search can make after its first local search. -/
theorem iterationsLeft_ofWalk (p : TabuSearch α) (ceiling bound : Nat) (walk : Walk q n)
    (v : Fin n) :
    (SearchState.ofWalk p ceiling walk).iterationsLeft bound = 2 * (bound - walk.effort.total) := by
  change 2 * (bound - walk.effort.total) + min (TabuList.empty n p.tenure).shortest 1 = _
  rw [TabuList.shortest_empty p.tenure v, Nat.zero_min, Nat.add_zero]

/-- Where the ceiling can be moved to when the first local search has left `walk`. -/
def greatestCeiling (p : TabuSearch α) (ceiling : Nat) (walk : Walk q n) : Nat :=
  ceiling + p.maxExtensions * ((ceiling - walk.effort.total) / 2)

theorem iterationsLeft_decreases (v : Fin n) {a b : SearchState q n × γ}
    (path : SearchState.Leads limits p.target (SearchState.ofWalk p ceiling walk, g₀) a)
    (proceeds : SearchState.Proceeds limits p.target a b) :
    b.1.iterationsLeft (p.greatestCeiling ceiling walk) <
      a.1.iterationsLeft (p.greatestCeiling ceiling walk) := by
  obtain ⟨ranked, ⟨count, extension, _⟩, _⟩ :=
    path.holds (SearchState.ranked_ofWalk p ceiling walk) (extended_ofWalk p ceiling walk)
  have unspent := SearchState.total_lt_ceiling_of_unfinished proceeds.1
  exact (SearchState.Proceeds.iterates proceeds).iterationsLeft_lt ranked v
    (Nat.lt_of_lt_of_le unspent extension.ceiling_le)

theorem iterateFrom_of_leads (some_variable : 0 < n) {last : SearchState q n}
    (path : SearchState.Leads limits p.target (SearchState.ofWalk p ceiling walk, g₀) (last, g'))
    (finished : last.isFinished = true) {iterations : Nat}
    (enough : 2 * (p.greatestCeiling ceiling walk - walk.effort.total) ≤ iterations) :
    SearchState.iterateFrom limits p.target iterations (SearchState.ofWalk p ceiling walk) g₀ =
      some (.ok last, g') := by
  have v : Fin n := ⟨0, some_variable⟩
  refine path.repeatUntil_eq_ok finished
    (fun a b before proceeds => iterationsLeft_decreases v before proceeds) ?_
  exact Nat.le_trans (Nat.le_of_eq (iterationsLeft_ofWalk p ceiling _ walk v)) enough

/-- When every local search returns and the counts stay within a word, a finished state is reached. -/
theorem exists_leads_of_sustained (some_variable : 0 < n)
    (climbs : Walk.climb limits ⟨Tracked.ofAssignmentWithin q fits x, effort⟩ g =
      some (.ok walk, g₀))
    (fitting : ∀ head : SearchState q n × γ, p.Heads limits fits x effort ceiling g head →
      ∀ after, ¬SearchState.Overruns limits p.target head.1 head.2 after)
    (sustained : ∀ head : SearchState q n × γ, p.Heads limits fits x effort ceiling g head →
      head.1.Sustained limits head.2) :
    ∃ last g', SearchState.Leads limits p.target (SearchState.ofWalk p ceiling walk, g₀)
        (last, g') ∧ last.isFinished = true := by
  have v : Fin n := ⟨0, some_variable⟩
  have goes_on : ∀ head, SearchState.Leads limits p.target (SearchState.ofWalk p ceiling walk, g₀)
      head → head.1.isFinished = false → ∃ next, SearchState.Proceeds limits p.target head next := by
    intro head path goes
    have starts : p.Heads limits fits x effort ceiling g head := ⟨goes, walk, g₀, climbs, path⟩
    obtain ⟨s', g', step⟩ := (sustained head starts).exists_iterate_eq p.target (fitting head starts)
    exact ⟨(s', g'), goes, step⟩
  obtain ⟨last, g', repeats⟩ := Reaches.exists_repeatUntil_eq_ok goes_on
    (fun a b before proceeds => iterationsLeft_decreases v before proceeds) (Nat.le_refl _)
  obtain ⟨finished, path⟩ := repeatUntil.reaches repeats
  exact ⟨last, g', path, finished⟩

/-- An iteration only starts if the first local search has left some of the first window. -/
theorem Heads.total_lt_ceiling {head : SearchState q n × γ}
    (starts : p.Heads limits fits x effort ceiling g head)
    (climbs : Walk.climb limits ⟨Tracked.ofAssignmentWithin q fits x, effort⟩ g =
      some (.ok walk, g₀)) : walk.effort.total < ceiling := by
  have open_at_first := Reaches.unfinished (starts.leads climbs) starts.1
  exact SearchState.total_lt_ceiling_of_unfinished open_at_first

/-- What holds of a state that an iteration starts from. -/
theorem Heads.holds {head : SearchState q n × γ}
    (starts : p.Heads limits fits x effort ceiling g head)
    (climbs : Walk.climb limits ⟨Tracked.ofAssignmentWithin q fits x, effort⟩ g =
      some (.ok walk, g₀)) :
    head.1.Ranked ∧ head.1.Extended (Budget.ofCeiling ceiling walk.effort p.maxExtensions) ∧
      walk.effort.total ≤ head.1.walk.effort.total := by
  exact (starts.leads climbs).holds (SearchState.ranked_ofWalk p ceiling walk) (extended_ofWalk p ceiling walk)

/-- No extension shortens the window. -/
theorem Heads.window_pos {head : SearchState q n × γ}
    (starts : p.Heads limits fits x effort ceiling g head) : 0 < head.1.budget.window := by
  obtain ⟨_, walk, g₀, climbs, _⟩ := id starts
  obtain ⟨_, ⟨count, extension, _⟩, _⟩ := starts.holds climbs
  have unspent := starts.total_lt_ceiling climbs
  have first_window : (Budget.ofCeiling ceiling walk.effort p.maxExtensions).window =
      ceiling - walk.effort.total := rfl
  rw [extension.window_eq, first_window]
  omega

theorem sustained_of_run {found : Searched α n} (some_variable : 0 < n)
    (ends : p.run limits q x effort ceiling g = some (.ok found, g')) {head : SearchState q n × γ}
    (starts : p.Heads limits fits x effort ceiling g head) : head.1.Sustained limits head.2 := by
  obtain ⟨_, ⟨empty, _⟩ | ⟨walk, g₀, last, climbs, path, finished, rfl⟩⟩ := course_of_run ends
  · omega
  · obtain ⟨_, next, proceeds, _⟩ := starts.next climbs path finished
    exact (SearchState.Proceeds.iterates proceeds).sustained

/-- A search whose local searches return and whose counts stay within a word comes to its end, and
its iterations are at most twice as many as the units of effort from the end of its first local
search to the greatest ceiling. No iteration starts with an empty window. A search that ends well has
reached its target or its ceiling, which has been moved up by halves of the first window, no more of
them than there are extensions, and records after the first. -/
theorem run_within_ceiling (p : TabuSearch α) (limits : Limits) (fits : n ≤ q.size)
    (x : Assignment n) (effort : Effort) (ceiling : Nat) (g : γ) (some_variable : 0 < n)
    (climbs : Walk.climb limits ⟨Tracked.ofAssignmentWithin q fits x, effort⟩ g =
      some (.ok walk, g₀)) :
    let half := (ceiling - walk.effort.total) / 2
    let most := ceiling + p.maxExtensions * half
    let iterations := 2 * (most - walk.effort.total)
    (most ≤ greatestWord →
      (∀ head : SearchState q n × γ, p.Heads limits fits x effort ceiling g head →
        head.1.Sustained limits head.2) →
      ∃ last g',
        SearchState.iterateFrom limits p.target iterations (SearchState.ofWalk p ceiling walk) g₀ =
          some (.ok last, g') ∧
        (iterations ≤ limits.iterations →
          p.run limits q x effort ceiling g = some (.ok (last.searched effort), g'))) ∧
    (∀ head : SearchState q n × γ, p.Heads limits fits x effort ceiling g head →
      0 < head.1.budget.window ∧ 0 < (Binary64.ofNat head.1.budget.window).magnitude) ∧
    ∀ found g', p.run limits q x effort ceiling g = some (.ok found, g') →
      (∃ last,
        SearchState.iterateFrom limits p.target iterations (SearchState.ofWalk p ceiling walk) g₀ =
          some (.ok last, g') ∧
        found = last.searched effort) ∧
      (found.outcome.targetReached = true ∨ found.outcome.ceiling ≤ found.effort.total) ∧
      (∃ count, count ≤ p.maxExtensions ∧ count ≤ found.outcome.bestTrace.length - 1 ∧
        found.outcome.ceiling = ceiling + count * half) ∧
      effort.total + found.outcome.flips = found.effort.total := by
  intro half most iterations
  refine ⟨?_, ?_, ?_⟩
  · intro bounded sustained
    have fitting : ∀ head : SearchState q n × γ, p.Heads limits fits x effort ceiling g head →
        ∀ after, ¬SearchState.Overruns limits p.target head.1 head.2 after :=
      fun head starts => (starts.holds climbs).2.1.not_overruns bounded
    obtain ⟨last, g', path, finished⟩ :=
      exists_leads_of_sustained some_variable climbs fitting sustained
    refine ⟨last, g', iterateFrom_of_leads some_variable path finished (Nat.le_refl _), ?_⟩
    intro enough
    exact run_of_course some_variable climbs
      (iterateFrom_of_leads some_variable path finished enough)
  · intro head starts
    exact ⟨starts.window_pos, Binary64.magnitude_ofNat_pos starts.window_pos⟩
  · intro found g' ends
    obtain ⟨_, ⟨empty, _⟩ | ⟨walk', g₁, last, climbs', path, finished, rfl⟩⟩ := course_of_run ends
    · omega
    · cases climbs.symm.trans climbs'
      obtain ⟨_, ⟨count, extension, few⟩, onward⟩ :=
        path.holds (SearchState.ranked_ofWalk p ceiling walk) (extended_ofWalk p ceiling walk)
      refine ⟨⟨last, iterateFrom_of_leads some_variable path finished (Nat.le_refl _), rfl⟩, ?_,
        ⟨count, ?_, Nat.le_sub_one_of_lt few, extension.ceiling_eq⟩, ?_⟩
      · simp only [SearchState.isFinished, Budget.isSpent, Bool.or_eq_true, decide_eq_true_eq]
          at finished
        exact finished
      · have left_eq : last.budget.extensionsLeft + count = p.maxExtensions := extension.left_eq
        omega
      · have begun : effort.total ≤ walk.effort.total := (Walk.total_of_climb climbs).1
        have spent : walk.effort.total ≤ last.walk.effort.total := onward
        change effort.total + (last.walk.effort.total - effort.total) = last.walk.effort.total
        omega

theorem run_within_ceiling_past_infinity :
    let one := Binary64.ofNat 1
    let two := Binary64.ofNat 2
    let q : Qubo Binary64 :=
      ⟨4, #v[-one, two, two, 0, 0, -one, two, 0, 0, 0, -one, 0, 0, 0, 0, Binary64.infinity true]⟩
    let fits : 4 ≤ q.size := by decide
    let p : TabuSearch Binary64 := ⟨5, none, 2⟩
    let limits := Limits.uniform 80
    let x := Assignment.allZero 4
    let g : Scripted :=
      ⟨#[5, 0x9e3779b97f4a7c15, 0xdeadbeefcafebabe, 0x123456789abcdef0], by decide, 0⟩
    ∃ walk g₀ last g', 0 < 4 ∧
      Walk.climb limits ⟨Tracked.ofAssignmentWithin q fits x, Effort.zero⟩ g =
        some (.ok walk, g₀) ∧
      walk.effort.total = 4 ∧ 24 + 2 * ((24 - 4) / 2) ≤ greatestWord ∧
      (∀ head : SearchState q 4 × Scripted, p.Heads limits fits x Effort.zero 24 g head →
        head.1.Sustained limits head.2) ∧
      SearchState.iterateFrom limits none 80 (SearchState.ofWalk p 24 walk) g₀ =
        some (.ok last, g') ∧
      p.run limits q x Effort.zero 24 g = some (.ok (last.searched Effort.zero), g') ∧
      (last.budget.ceiling, last.iterations, last.moves) = (34, 24, 16) ∧
      (last.targetReached = true ∨ last.budget.ceiling ≤ last.walk.effort.total) ∧
      ∃ count, count ≤ 2 ∧ count ≤ last.trace.length - 1 ∧
        last.budget.ceiling = 24 + count * ((24 - 4) / 2) := by
  intro one two q fits p limits x g
  have descended : ((Walk.climb limits ⟨Tracked.ofAssignmentWithin q fits x, Effort.zero⟩ g).map
      fun result => result.1.toOption.map fun walk => walk.effort.total) = some (some 4) := by
    decide +kernel
  have reported : ((p.run limits q x Effort.zero 24 g).map fun result =>
      result.1.toOption.map fun found =>
        (found.outcome.ceiling, found.outcome.iterations, found.outcome.moves)) =
          some (some (34, 24, 16)) := by
    decide +kernel
  obtain ⟨walk, g₀, climbs, total⟩ := Attempt.exists_ok_of_report descended
  obtain ⟨found, g₁, returned, values⟩ := Attempt.exists_ok_of_report reported
  have sustained : ∀ head : SearchState q 4 × Scripted,
      p.Heads limits fits x Effort.zero 24 g head → head.1.Sustained limits head.2 :=
    fun head starts => sustained_of_run (by decide) returned starts
  obtain ⟨terminates, _, outcome⟩ :=
    run_within_ceiling p limits fits x Effort.zero 24 g (by decide) climbs
  rw [total] at terminates outcome
  obtain ⟨last, g', repeats, ends⟩ := terminates (by decide) sustained
  have ends := ends (by decide)
  cases returned.symm.trans ends
  obtain ⟨_, stopped, extended, _⟩ := outcome _ _ ends
  exact ⟨walk, g₀, last, _, by decide, climbs, total, by decide, sustained, repeats, ends, values,
    stopped, extended⟩

end TabuSearch

end BinaryQuadratic
