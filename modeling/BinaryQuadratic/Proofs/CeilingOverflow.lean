import BinaryQuadratic.Proofs.Progression
import BinaryQuadratic.Random.KeyStream

set_option autoImplicit false

/-! The ceiling near the greatest word. It is a sum without wrapping in every search that ends well.
But a search whose effort is counted within a word all along still breaks down when an extension
leads past the greatest word. -/

namespace BinaryQuadratic

variable {α γ : Type} [Coefficient α] [Generator γ] {q : Qubo α} {n : Nat}

namespace Budget

variable {b : Budget} {effort : Effort}

/-- Only an extension takes the ceiling past a bound. -/
theorem extends_of_lt {bound : Nat} (low : b.ceiling ≤ bound)
    (past : bound < (b.improved effort).ceiling) :
    0 < b.extensionsLeft ∧ (b.improved effort).ceiling = b.ceiling + b.increment := by
  unfold improved at past ⊢
  by_cases late : extendAfter ≤ b.usedShare effort ∧ 0 < b.extensionsLeft
  · rw [if_pos late]
    exact ⟨late.2, rfl⟩
  · rw [if_neg late] at past
    omega

end Budget

namespace SearchState

variable {limits : Limits} {target : Option (Target α)} {s s' : SearchState q n} {g g' : γ}
  {after : Walk q n}

theorem iterate_of_overruns (overruns : Overruns limits target s g after) :
    ∃ g', s.iterate limits target g = some (.error ⟨.countOverflow, after.effort⟩, g') := by
  obtain ⟨v, left, g', found, climbs, unmet, past⟩ := overruns
  have ascent := Walk.total_of_climb climbs
  have counted : left.checked = .ok () :=
    (Effort.checked_eq_ok_iff left).mpr (Nat.le_trans ascent.1 ascent.2)
  have breaks : (s.budget.improved after.effort).checked after.effort =
      .error ⟨.countOverflow, after.effort⟩ := if_neg (Nat.not_le_of_lt past)
  unfold scanned at found
  refine ⟨g', ?_⟩
  unfold iterate
  simp only [countIterations, found]
  refine (Attempt.bind_of_ok (Attempt.liftExcept_of_ok counted g)).trans ?_
  refine (Attempt.bind_of_ok climbs).trans ?_
  simp only [unmet, Bool.false_eq_true, if_false]
  exact Attempt.bind_of_error (Attempt.liftExcept_of_error breaks g')

theorem Overruns.not_proceeds {head next : SearchState q n × γ}
    (overruns : Overruns limits target head.1 head.2 after) :
    ¬Proceeds limits target head next := by
  intro proceeds
  obtain ⟨g', breaks⟩ := iterate_of_overruns overruns
  cases proceeds.2.symm.trans breaks

theorem Iterates.ceiling_le (step : Iterates limits target s g s' g')
    (low : s.budget.ceiling ≤ greatestWord) : s'.budget.ceiling ≤ greatestWord := by
  cases step with
  | reaches found counted climbs met => exact low
  | improves found counted climbs unmet bounded =>
      simp only [settled]
      exact (Budget.checked_eq_ok_iff _ _).mp bounded
  | diverts found counted => exact low
  | idles found => exact low

theorem Leads.ceiling_le {a b : SearchState q n × γ} (path : Leads limits target a b)
    (low : a.1.budget.ceiling ≤ greatestWord) : b.1.budget.ceiling ≤ greatestWord := by
  induction path with
  | refl => exact low
  | tail _ proceeds ih => exact (Proceeds.iterates proceeds).ceiling_le ih

end SearchState

namespace TabuSearch

variable {p : TabuSearch α} {limits : Limits} {fits : n ≤ q.size} {x : Assignment n}
  {effort : Effort} {ceiling : Nat} {g g₀ : γ} {walk after : Walk q n}
  {head : SearchState q n × γ}

/-- Everything before the improvement that overruns has been counted within a word, and nothing comes
after it. -/
theorem sustained_of_overruns (starts : p.Heads limits fits x effort ceiling g head)
    (overruns : SearchState.Overruns limits p.target head.1 head.2 after)
    {other : SearchState q n × γ} (starts' : p.Heads limits fits x effort ceiling g other) :
    other.1.Sustained limits other.2 := by
  have here : head.1.Sustained limits head.2 := by
    obtain ⟨v, left, g', found, ascends, _⟩ := overruns
    exact SearchState.sustained_of_improving found ascends
  rcases starts.total starts' with onward | back
  · rcases onward.cases_head with same | ⟨next, proceeds, _⟩
    · rw [← same]
      exact here
    · exact absurd proceeds overruns.not_proceeds
  · rcases back.cases_head with same | ⟨next, proceeds, _⟩
    · rw [same]
      exact here
    · exact (SearchState.Proceeds.iterates proceeds).sustained

theorem run_of_overruns (starts : p.Heads limits fits x effort ceiling g head)
    (overruns : SearchState.Overruns limits p.target head.1 head.2 after)
    (climbs : Walk.climb limits ⟨Tracked.ofAssignmentWithin q fits x, effort⟩ g =
      some (.ok walk, g₀))
    (enough : 2 * (p.greatestCeiling ceiling walk - walk.effort.total) ≤ limits.iterations) :
    ∃ g', p.run limits q x effort ceiling g =
      some (.error ⟨.countOverflow, after.effort⟩, g') := by
  obtain ⟨v, _⟩ := id overruns
  obtain ⟨g', breaks⟩ := SearchState.iterate_of_overruns overruns
  obtain ⟨_, ⟨count, extension, _⟩, _⟩ := starts.holds climbs
  have below := SearchState.total_lt_ceiling_of_unfinished starts.1
  have most : head.1.budget.ceiling ≤ p.greatestCeiling ceiling walk := extension.ceiling_le
  refine ⟨g', run_of_broken_course (Nat.zero_lt_of_lt v.isLt) climbs ?_⟩
  apply (starts.leads climbs).repeatUntil_eq_error starts.1 breaks
    (fun a b before proceeds => iterationsLeft_decreases v before proceeds)
  · unfold SearchState.iterationsLeft
    omega
  · exact Nat.le_trans (Nat.le_of_eq (iterationsLeft_ofWalk p ceiling _ walk v)) enough

/-- Let `ceiling` be within a word. A search that ends well reports it moved up by half of the first
window for each extension made, as a sum that is within a word too. If all effort is counted within a
word, a search ends well unless it comes to an improvement that is granted an extension past the
greatest word. There it breaks down, at an effort within a word, and with every iteration counted
within a word. -/
theorem ceiling_or_overflow_of_run (p : TabuSearch α) (limits : Limits) (fits : n ≤ q.size)
    (x : Assignment n) (effort : Effort) (ceiling : Nat) (g : γ) (low : ceiling ≤ greatestWord)
    (climbs : Walk.climb limits ⟨Tracked.ofAssignmentWithin q fits x, effort⟩ g =
      some (.ok walk, g₀))
    (enough : 2 * (p.greatestCeiling ceiling walk - walk.effort.total) ≤ limits.iterations) :
    let half := (ceiling - walk.effort.total) / 2
    (∀ found g', p.run limits q x effort ceiling g = some (.ok found, g') →
      ceiling ≤ found.outcome.ceiling ∧ found.outcome.ceiling ≤ greatestWord ∧
      ∃ made ≤ p.maxExtensions, found.outcome.ceiling = ceiling + made * half ∧
        (0 < n → ∃ last, found = last.searched effort ∧
          SearchState.Leads limits p.target (SearchState.ofWalk p ceiling walk, g₀) (last, g') ∧
          last.budget.extensionsLeft + made = p.maxExtensions)) ∧
    ((∀ head : SearchState q n × γ, p.Heads limits fits x effort ceiling g head →
        head.1.Sustained limits head.2 ∧
        ∀ after, ¬SearchState.Overruns limits p.target head.1 head.2 after) →
      ∃ found g', p.run limits q x effort ceiling g = some (.ok found, g')) ∧
    ∀ head : SearchState q n × γ, p.Heads limits fits x effort ceiling g head →
      ∀ after, SearchState.Overruns limits p.target head.1 head.2 after →
        (∃ g', p.run limits q x effort ceiling g =
          some (.error ⟨.countOverflow, after.effort⟩, g')) ∧
        after.effort.total ≤ greatestWord ∧
        (∀ other : SearchState q n × γ, p.Heads limits fits x effort ceiling g other →
          other.1.Sustained limits other.2) ∧
        0 < head.1.budget.extensionsLeft ∧ head.1.budget.ceiling ≤ greatestWord ∧
        greatestWord < head.1.budget.ceiling + half := by
  intro half
  refine ⟨?_, ?_, ?_⟩
  · intro found g' ends
    obtain ⟨_, ⟨rfl, rfl, _⟩ | ⟨walk', g₁, last, climbs', path, _, rfl⟩⟩ := course_of_run ends
    · refine ⟨Nat.le_refl _, low, 0, Nat.zero_le _, ?_, fun some_variable => ?_⟩
      · rw [Nat.zero_mul]
        rfl
      · exact absurd some_variable (Nat.lt_irrefl 0)
    · cases climbs.symm.trans climbs'
      obtain ⟨_, ⟨made, extension, _⟩, _⟩ :=
        path.holds (SearchState.ranked_ofWalk p ceiling walk) (extended_ofWalk p ceiling walk)
      have left_eq : last.budget.extensionsLeft + made = p.maxExtensions := extension.left_eq
      exact ⟨path.grows.ceiling, path.ceiling_le low, made, by omega, extension.ceiling_eq,
        fun _ => ⟨last, rfl, path, left_eq⟩⟩
  · intro unbroken
    rcases Nat.eq_zero_or_pos n with empty | some_variable
    · exact ⟨_, _, run_eq_ok_iff.mpr ⟨fits, Or.inl ⟨empty, rfl, rfl⟩⟩⟩
    · obtain ⟨last, g', path, finished⟩ := exists_leads_of_sustained some_variable climbs
        (fun head starts => (unbroken head starts).2) (fun head starts => (unbroken head starts).1)
      have repeats := iterateFrom_of_leads some_variable path finished enough
      exact ⟨_, g', run_of_course some_variable climbs repeats⟩
  · intro head starts after overruns
    have breaks := run_of_overruns starts overruns climbs enough
    have counted : ∀ other : SearchState q n × γ, p.Heads limits fits x effort ceiling g other →
        other.1.Sustained limits other.2 :=
      fun other starts' => sustained_of_overruns starts overruns starts'
    obtain ⟨_, ⟨made, extension, _⟩, _⟩ := starts.holds climbs
    have increment_eq : head.1.budget.increment = half := extension.increment_eq
    have bound : head.1.budget.ceiling ≤ greatestWord := (starts.leads climbs).ceiling_le low
    obtain ⟨v, left, g', _, ascends, _, past⟩ := overruns
    obtain ⟨some_left, raised⟩ := Budget.extends_of_lt bound past
    rw [raised, increment_eq] at past
    exact ⟨breaks, (Walk.total_of_climb ascends).2, counted, some_left, bound, past⟩

theorem ceiling_or_overflow_of_run_two_below_the_limit :
    let one := Binary64.ofNat 1
    let two := Binary64.ofNat 2
    let three := Binary64.ofNat 3
    let q : Qubo Binary64 :=
      ⟨4, #v[-one, three, 0, -three, 0, 0, -two, one, 0, 0, -one, 0, 0, 0, 0, 0]⟩
    let fits : 4 ≤ q.size := by decide
    let p : TabuSearch Binary64 := ⟨1, some ⟨two, true⟩, 900⟩
    let limits := Limits.uniform 24000
    let x := Assignment.allZero 4
    let effort : Effort := ⟨greatestWord - 45⟩
    let g := KeyStream.ofSeed 0
    ∃ walk g₀ found g', greatestWord - 15 ≤ greatestWord ∧
      Walk.climb limits ⟨Tracked.ofAssignmentWithin q fits x, effort⟩ g = some (.ok walk, g₀) ∧
      walk.effort.total = greatestWord - 41 ∧
      2 * (p.greatestCeiling (greatestWord - 15) walk - walk.effort.total) ≤ limits.iterations ∧
      p.run limits q x effort (greatestWord - 15) g = some (.ok found, g') ∧
      found.outcome.ceiling = greatestWord - 15 + 1 * 13 ∧
      ∃ made ≤ p.maxExtensions, found.outcome.ceiling = greatestWord - 15 + made * 13 := by
  intro one two three q fits p limits x effort g
  have descended : ((Walk.climb limits ⟨Tracked.ofAssignmentWithin q fits x, effort⟩ g).map
      fun result => result.1.toOption.map fun walk => walk.effort.total) =
        some (some (greatestWord - 41)) := by
    decide +kernel
  have reported : ((p.run limits q x effort (greatestWord - 15) g).map fun result =>
      result.1.toOption.map fun found => found.outcome.ceiling) =
        some (some (greatestWord - 15 + 1 * 13)) := by
    decide +kernel
  obtain ⟨walk, g₀, climbs, begun⟩ := Attempt.exists_ok_of_report descended
  obtain ⟨found, g', ends, value⟩ := Attempt.exists_ok_of_report reported
  have enough : 2 * (p.greatestCeiling (greatestWord - 15) walk - walk.effort.total) ≤
      limits.iterations := by
    unfold greatestCeiling
    rw [begun]
    decide
  have low : greatestWord - 15 ≤ greatestWord := Nat.sub_le _ _
  obtain ⟨outcome, _, _⟩ :=
    ceiling_or_overflow_of_run p limits fits x effort (greatestWord - 15) g low climbs enough
  obtain ⟨_, _, made, few, sum, _⟩ := outcome found g' ends
  rw [begun] at sum
  exact ⟨walk, g₀, found, g', low, climbs, begun, enough, ends, value, made, few, sum⟩

/-- No effort is counted past the greatest word, and yet the search breaks down. -/
theorem exists_overflow_with_effort_within_a_word :
    let one := Binary64.ofNat 1
    let two := Binary64.ofNat 2
    let three := Binary64.ofNat 3
    let q : Qubo Binary64 :=
      ⟨4, #v[-one, three, 0, -three, 0, 0, -two, one, 0, 0, -one, 0, 0, 0, 0, 0]⟩
    let fits : 4 ≤ q.size := by decide
    let p : TabuSearch Binary64 := ⟨1, some ⟨two, true⟩, 900⟩
    let limits := Limits.uniform 24000
    let x := Assignment.allZero 4
    let effort : Effort := ⟨greatestWord - 30⟩
    let g := KeyStream.ofSeed 0
    (∀ head : SearchState q 4 × KeyStream, p.Heads limits fits x effort greatestWord g head →
      head.1.Sustained limits head.2) ∧
    ∃ g', p.run limits q x effort greatestWord g =
      some (.error ⟨.countOverflow, ⟨greatestWord - 17⟩⟩, g') := by
  intro one two three q fits p limits x effort g
  have reported : ((p.improvementAfter limits fits x effort greatestWord 1 g).map fun result =>
      result.1.toOption.map fun (walk, head, _, improved) =>
        ([walk.effort.total, improved.effort.total,
            (head.budget.improved improved.effort).ceiling],
          Target.reached p.target improved.current.energy)) =
      some (some ([greatestWord - 26, greatestWord - 17, greatestWord + 13], false)) := by
    decide +kernel
  obtain ⟨⟨walk, head, ⟨v, left⟩, after⟩, g₁, ends, outcome⟩ := Attempt.exists_ok_of_report reported
  obtain ⟨values, unmet⟩ := Prod.mk.inj outcome
  simp only [List.cons.injEq, and_true] at values
  obtain ⟨begun, used, raised⟩ := values
  obtain ⟨g₀, g₂, climbs, starts, found, ascends⟩ := of_improvementAfter ends
  have past : greatestWord < (head.budget.improved after.effort).ceiling := by omega
  have overruns : SearchState.Overruns limits p.target head g₂ after :=
    ⟨v, left, g₁, found, ascends, unmet, past⟩
  have enough : 2 * (p.greatestCeiling greatestWord walk - walk.effort.total) ≤
      limits.iterations := by
    unfold greatestCeiling
    rw [begun]
    decide
  obtain ⟨g', breaks⟩ := run_of_overruns starts overruns climbs enough
  have effort_eq : after.effort = ⟨greatestWord - 17⟩ := congrArg Effort.mk used
  rw [effort_eq] at breaks
  exact ⟨fun other starts' => sustained_of_overruns starts overruns starts', g', breaks⟩

end TabuSearch

end BinaryQuadratic
