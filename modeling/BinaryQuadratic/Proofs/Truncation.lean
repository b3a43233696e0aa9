import BinaryQuadratic.Proofs.Progression

set_option autoImplicit false

/-! A target cuts a search short, and does nothing else. Until the search records an energy that meets
the target, it goes through the states that it goes through without one, and with that record it
ends. -/

namespace BinaryQuadratic

variable {α γ : Type} [Coefficient α] [Generator γ] {q : Qubo α} {n : Nat}

namespace SearchState

variable {limits : Limits} {target : Option (Target α)} {s s' : SearchState q n} {g g' : γ}

/-- As long as nothing is recorded, the best stays. -/
theorem Leads.best_eq_of_trace_eq {a b : SearchState q n × γ} (path : Leads limits target a b)
    (same : b.1.trace = a.1.trace) : b.1.best = a.1.best := by
  induction path using Relation.ReflTransGen.head_induction_on with
  | refl => rfl
  | @head a next advance rest ih =>
      rcases (Proceeds.iterates advance).record_cases with
        ⟨_, trace_eq, best_eq⟩ | ⟨v, left, walk, g₁, _, _, trace_eq, _⟩
      · rw [← best_eq]
        exact ih (same.trans trace_eq.symm)
      · have longer := (Leads.grows rest).trace.length_le
        rw [same, trace_eq, List.length_append, List.length_singleton] at longer
        omega

variable {t : Target α} {a b : SearchState q n × γ}

/-- A search with a target beside one without: in the same state, or ended with the latest record. -/
def Beside (a b : SearchState q n × γ) : Prop :=
  b = a ∨ b.1.targetReached = true ∧ b.1.trace = a.1.trace ∧ b.1.best = a.1.best

omit [Coefficient α] [Generator γ] in
theorem Beside.finished (beside : Beside a b) (ends : a.1.isFinished = true) :
    b.1.isFinished = true := by
  rcases beside with rfl | ⟨reached, _⟩
  · exact ends
  · unfold isFinished
    rw [reached]
    rfl

theorem Iterates.exists_beside (t : Target α) (step : Iterates limits none s g s' g') :
    ∃ b : SearchState q n × γ, Iterates limits (some t) s g b.1 b.2 ∧ Beside (s', g') b := by
  cases step with
  | reaches found counted climbs met => cases met
  | @improves v left walk g₁ found counted climbs unmet bounded =>
      cases met : Target.reached (some t) walk.current.energy with
      | true =>
          -- The target is looked at before the budget is, and before the coin is tossed.
          refine ⟨(_, _), .reaches found counted climbs met, Or.inr ⟨rfl, ?_, ?_⟩⟩
          · simp only [settled]
          · simp only [settled]
      | false => exact ⟨_, .improves found counted climbs met bounded, Or.inl rfl⟩
  | diverts found counted => exact ⟨_, .diverts found counted, Or.inl rfl⟩
  | idles found => exact ⟨_, .idles found, Or.inl rfl⟩

theorem Beside.follows (t : Target α) {a' : SearchState q n × γ} (beside : Beside a b)
    (advance : Proceeds limits none a a') (goes : b.1.isFinished = false) :
    ∃ b', Proceeds limits (some t) b b' ∧ Beside a' b' := by
  rcases beside with rfl | ⟨reached, _⟩
  · obtain ⟨b', step, beside⟩ := (Proceeds.iterates advance).exists_beside t
    exact ⟨b', ⟨goes, iterate_of_iterates step⟩, beside⟩
  · rw [isFinished, reached] at goes
    cases goes

/-- The record of a search for `t`: every entry before the last misses the target, and the last one
decides whether it is reached. -/
def Awaits (t : Target α) (s : SearchState q n) : Prop :=
  ∃ earlier last, s.trace = earlier ++ [last] ∧ (∀ energy ∈ earlier, t.isMet energy = false) ∧
    s.targetReached = t.isMet last

theorem Awaits.iterates (awaits : s.Awaits t) (goes : s.isFinished = false)
    (step : Iterates limits (some t) s g s' g') : s'.Awaits t := by
  have unreached : s.targetReached = false := (Bool.or_eq_false_iff.mp goes).1
  have missed : ∀ energy ∈ s.trace, t.isMet energy = false := by
    obtain ⟨earlier, last, trace_eq, missed, decided⟩ := awaits
    intro energy member
    rw [trace_eq] at member
    rcases List.mem_append.mp member with before | latest
    · exact missed energy before
    · rw [List.mem_singleton.mp latest, ← decided, unreached]
  cases step with
  | reaches found counted climbs met => exact ⟨s.trace, _, rfl, missed, met.symm⟩
  | improves found counted climbs unmet bounded =>
      refine ⟨s.trace, _, ?_, missed, unreached.trans unmet.symm⟩
      simp only [settled, record, countIterations]
  | diverts found counted => exact awaits
  | idles found => exact awaits

end SearchState

namespace TabuSearch

section Snapshots

variable (p : TabuSearch α) (limits : Limits) (fits : n ≤ q.size) (x : Assignment n)
  (effort : Effort) (ceiling : Nat) (g : γ)

/-- The record of a search up to one of its entries, and the assignment of which that entry is the
energy: the end of the first local search, or of the one after an improving move. -/
inductive Records : List α → Assignment n → Prop
  | nothing (empty : n = 0) : Records [0] x
  | first {walk : Walk q n} {g₀ : γ} (some_variable : 0 < n)
      (climbs : Walk.climb limits ⟨Tracked.ofAssignmentWithin q fits x, effort⟩ g =
        some (.ok walk, g₀)) :
      Records [walk.current.energy] walk.current.bits
  | later {head : SearchState q n × γ} {v : Fin n} {left : Effort} {walk : Walk q n} {g₁ : γ}
      (starts : p.Heads limits fits x effort ceiling g head)
      (found : head.1.scanned = .improving v left)
      (climbs : Walk.climb limits ⟨head.1.walk.current.flip v, left⟩ head.2 = some (.ok walk, g₁)) :
      Records (head.1.trace ++ [walk.current.energy]) walk.current.bits

end Snapshots

variable {p : TabuSearch α} {limits : Limits} {fits : n ≤ q.size} {x : Assignment n}
  {effort : Effort} {ceiling : Nat} {g g₀ g' : γ} {walk : Walk q n}

theorem records_best (some_variable : 0 < n)
    (climbs : Walk.climb limits ⟨Tracked.ofAssignmentWithin q fits x, effort⟩ g =
      some (.ok walk, g₀)) {state : SearchState q n × γ}
    (path : SearchState.Leads limits p.target (SearchState.ofWalk p ceiling walk, g₀) state) :
    p.Records limits fits x effort ceiling g state.1.trace state.1.best := by
  induction path with
  | refl => exact .first some_variable climbs
  | @tail before after path advance ih =>
      have starts : p.Heads limits fits x effort ceiling g before :=
        ⟨advance.1, walk, g₀, climbs, path⟩
      rcases (SearchState.Proceeds.iterates advance).record_cases with
        ⟨_, trace_eq, best_eq⟩ | ⟨v, left, walk', g₁, found, climbs', trace_eq, best_eq⟩
      · rw [trace_eq, best_eq]
        exact ih
      · rw [trace_eq, best_eq]
        exact .later starts found climbs'

/-- In a search that comes to its end, the state after a record holds what was recorded. -/
theorem Records.exists_state (some_variable : 0 < n)
    (climbs : Walk.climb limits ⟨Tracked.ofAssignmentWithin q fits x, effort⟩ g =
      some (.ok walk, g₀)) {last : SearchState q n}
    (path : SearchState.Leads limits p.target (SearchState.ofWalk p ceiling walk, g₀) (last, g'))
    (finished : last.isFinished = true) {trace : List α} {y : Assignment n}
    (records : p.Records limits fits x effort ceiling g trace y) :
    ∃ state, SearchState.Leads limits p.target (SearchState.ofWalk p ceiling walk, g₀) state ∧
      state.1.trace = trace ∧ state.1.best = y := by
  cases records with
  | nothing empty => omega
  | first _ climbs' =>
      cases climbs.symm.trans climbs'
      exact ⟨_, .refl, rfl, rfl⟩
  | later starts found climbs' =>
      obtain ⟨path', next, advance, _⟩ := starts.next climbs path finished
      rcases (SearchState.Proceeds.iterates advance).record_cases with
        ⟨none_found, _, _⟩ | ⟨v, left, walk', g₁, found', climbs'', trace_eq, best_eq⟩
      · exact absurd found (none_found _ _)
      · cases found.symm.trans found'
        cases climbs'.symm.trans climbs''
        exact ⟨next, path'.tail advance, trace_eq, best_eq⟩

/-- A record determines its assignment, which is the best as long as nothing more is recorded. -/
theorem records_iff (some_variable : 0 < n)
    (climbs : Walk.climb limits ⟨Tracked.ofAssignmentWithin q fits x, effort⟩ g =
      some (.ok walk, g₀)) {last : SearchState q n} {state : SearchState q n × γ}
    (path : SearchState.Leads limits p.target (SearchState.ofWalk p ceiling walk, g₀) (last, g'))
    (finished : last.isFinished = true)
    (before : SearchState.Leads limits p.target (SearchState.ofWalk p ceiling walk, g₀) state)
    (y : Assignment n) :
    p.Records limits fits x effort ceiling g state.1.trace y ↔ y = state.1.best := by
  constructor
  · intro records
    obtain ⟨other, before', trace_eq, rfl⟩ := records.exists_state some_variable climbs path finished
    rcases Reaches.total before before' with onward | back
    · exact SearchState.Leads.best_eq_of_trace_eq onward trace_eq
    · exact (SearchState.Leads.best_eq_of_trace_eq back trace_eq.symm).symm
  · rintro rfl
    exact records_best some_variable climbs before

/-! ### With and without a target -/

omit [Generator γ] in
theorem beside_ofWalk (tenure extensions : Nat) (t : Target α) (ceiling : Nat) (walk : Walk q n)
    (g : γ) :
    SearchState.Beside (SearchState.ofWalk ⟨tenure, none, extensions⟩ ceiling walk, g)
      (SearchState.ofWalk ⟨tenure, some t, extensions⟩ ceiling walk, g) := by
  cases met : t.isMet walk.current.energy with
  | true => exact Or.inr ⟨met, rfl, rfl⟩
  | false =>
      have reached_only : SearchState.ofWalk ⟨tenure, some t, extensions⟩ ceiling walk =
          { SearchState.ofWalk ⟨tenure, none, extensions⟩ ceiling walk with
            targetReached := t.isMet walk.current.energy } := rfl
      rw [reached_only, met]
      exact Or.inl rfl

theorem awaits_ofWalk (tenure extensions : Nat) (t : Target α) (ceiling : Nat) (walk : Walk q n) :
    (SearchState.ofWalk ⟨tenure, some t, extensions⟩ ceiling walk).Awaits t :=
  ⟨[], walk.current.energy, rfl, fun _ member => absurd member List.not_mem_nil, rfl⟩

/-- A list can be cut before the first entry that meets the target in one way only. -/
theorem first_met_unique {t : Target α} {earlier earlier' later later' : List α} {energy energy' : α}
    (missed : ∀ before ∈ earlier, t.isMet before = false) (met : t.isMet energy = true)
    (missed' : ∀ before ∈ earlier', t.isMet before = false) (met' : t.isMet energy' = true)
    (same : earlier ++ energy :: later = earlier' ++ energy' :: later') :
    earlier = earlier' ∧ energy = energy' := by
  have cut : ∀ {front rest : List α} {e : α}, (∀ before ∈ front, t.isMet before = false) →
      t.isMet e = true → (front ++ e :: rest).takeWhile (fun a => !t.isMet a) = front := by
    intro front rest e missed met
    rw [List.takeWhile_append_of_pos fun a member => by rw [missed a member]; rfl,
      List.takeWhile_cons_of_neg (by rw [met]; exact Bool.false_ne_true), List.append_nil]
  have fronts : earlier = earlier' := by
    rw [← cut missed met, same, cut missed' met']
  subst fronts
  have rests := List.append_cancel_left same
  cases rests
  exact ⟨rfl, rfl⟩

/-- A search with a target ends with a part of the record of the search without one, all of which but
the last entry misses the target; unless that entry meets it, nothing is cut off. -/
theorem exists_cut_of_run {tenure extensions : Nat} {t : Target α} {found : Searched α n}
    (ends : TabuSearch.run limits ⟨tenure, none, extensions⟩ q x effort ceiling g =
      some (.ok found, g')) :
    ∃ cut h earlier energy,
      TabuSearch.run limits ⟨tenure, some t, extensions⟩ q x effort ceiling g =
        some (.ok cut, h) ∧
      cut.outcome.bestTrace = earlier ++ [energy] ∧
      (∀ before ∈ earlier, t.isMet before = false) ∧
      cut.outcome.targetReached = t.isMet energy ∧
      cut.outcome.bestTrace <+: found.outcome.bestTrace ∧
      (cut.outcome.targetReached = false → cut = found ∧ h = g') ∧
      ∃ fits : n ≤ q.size, ∀ y,
        Records ⟨tenure, none, extensions⟩ limits fits x effort ceiling g
          cut.outcome.bestTrace y ↔ y = cut.bits := by
  obtain ⟨fits, ⟨empty, rfl, rfl⟩ | ⟨some_variable, walk, g₀, last, climbs, repeats, rfl⟩⟩ :=
    run_eq_ok_iff.mp ends
  · have returns : TabuSearch.run limits ⟨tenure, some t, extensions⟩ q x effort ceiling g' =
        some (.ok (withoutVariables ⟨tenure, some t, extensions⟩ x effort ceiling), g') :=
      run_eq_ok_iff.mpr ⟨fits, Or.inl ⟨empty, rfl, rfl⟩⟩
    refine ⟨_, _, [], 0, returns, rfl, fun _ member => absurd member List.not_mem_nil, rfl,
      List.prefix_rfl, ?_, fits, ?_⟩
    · intro unreached
      have unmet : Target.reached (some t) (0 : α) = false := unreached
      unfold withoutVariables
      rw [unmet]
      exact ⟨rfl, rfl⟩
    · subst empty
      intro y
      have same : y = x := Vector.ext fun i inside => absurd inside (Nat.not_lt_zero i)
      rw [same]
      exact iff_of_true (.nothing rfl) rfl
  · obtain ⟨finished, path⟩ := repeatUntil.reaches repeats
    obtain ⟨state, ⟨last', h⟩, repeats', before, after, beside⟩ :=
      repeatUntil.alongside (R := SearchState.Beside) SearchState.Beside.finished
        (fun beside advance _ goes => beside.follows t advance goes)
        (beside_ofWalk tenure extensions t ceiling walk g₀) repeats
    obtain ⟨finished', path'⟩ := repeatUntil.reaches repeats'
    obtain ⟨earlier, energy, trace_eq, missed, decided⟩ := SearchState.Leads.preserves path'
      SearchState.Awaits.iterates (awaits_ofWalk tenure extensions t ceiling walk)
    have alike : last'.trace = state.1.trace ∧ last'.best = state.1.best := by
      rcases beside with same | ⟨_, same⟩
      · rw [← same]
        exact ⟨rfl, rfl⟩
      · exact same
    refine ⟨last'.searched effort, h, earlier, energy,
      run_of_course some_variable climbs repeats', trace_eq, missed, decided, ?_, ?_, fits, ?_⟩
    · change last'.trace <+: last.trace
      rw [alike.1]
      exact (SearchState.Leads.grows after).trace
    · intro unreached
      rcases beside with same | ⟨reached, _⟩
      · rw [← same] at after
        cases Reaches.eq_of_finished after finished'
        exact ⟨rfl, rfl⟩
      · exact absurd (unreached.symm.trans reached) Bool.false_ne_true
    · intro y
      change Records _ _ _ _ _ _ _ last'.trace y ↔ y = last'.best
      rw [alike.1, alike.2]
      exact records_iff some_variable climbs path finished before y

/-- A search with a target, beside the same search without one. If no entry of the record without a
target meets it, the two searches are the same. Otherwise the target is reached, the record is cut
after the first entry that meets it, and the assignment is the one of which that entry is the energy. -/
theorem run_of_target (tenure extensions : Nat) (t : Target α) {found : Searched α n}
    (ends : TabuSearch.run limits ⟨tenure, none, extensions⟩ q x effort ceiling g =
      some (.ok found, g')) :
    ∃ cut h, TabuSearch.run limits ⟨tenure, some t, extensions⟩ q x effort ceiling g =
        some (.ok cut, h) ∧
      ((∀ energy ∈ found.outcome.bestTrace, t.isMet energy = false) →
        cut = found ∧ h = g' ∧ cut.outcome.targetReached = false) ∧
      ∀ earlier energy later, found.outcome.bestTrace = earlier ++ energy :: later →
        (∀ before ∈ earlier, t.isMet before = false) → t.isMet energy = true →
        cut.outcome.targetReached = true ∧ cut.outcome.bestTrace = earlier ++ [energy] ∧
        ∃ fits : n ≤ q.size, ∀ y,
          Records ⟨tenure, none, extensions⟩ limits fits x effort ceiling g
            (earlier ++ [energy]) y ↔ y = cut.bits := by
  obtain ⟨cut, h, front, last, returns, trace_eq, missed, decided, ⟨rest, whole⟩, kept, fits,
    records⟩ := exists_cut_of_run (t := t) ends
  refine ⟨cut, h, returns, ?_, ?_⟩
  · intro none_met
    have member : last ∈ found.outcome.bestTrace := by
      rw [← whole, trace_eq]
      exact List.mem_append_left rest (List.mem_append_right front List.mem_cons_self)
    have unreached := decided.trans (none_met last member)
    obtain ⟨same, same'⟩ := kept unreached
    exact ⟨same, same', unreached⟩
  · intro earlier energy later listed missed' met
    have reached : t.isMet last = true := by
      cases met' : t.isMet last with
      | true => rfl
      | false =>
          obtain ⟨rfl, _⟩ := kept (decided.trans met')
          have member : energy ∈ front ++ [last] := by
            rw [← trace_eq, listed]
            exact List.mem_append_right earlier List.mem_cons_self
          rcases List.mem_append.mp member with before | latest
          · exact (missed energy before).symm.trans met
          · rw [← List.mem_singleton.mp latest, met] at met'
            exact met'.symm
    rw [trace_eq, listed, List.append_assoc, List.singleton_append] at whole
    obtain ⟨rfl, rfl⟩ := first_met_unique missed reached missed' met whole
    rw [trace_eq] at records
    exact ⟨decided.trans reached, trace_eq, fits, records⟩

theorem run_of_target_met_by_the_second_record :
    let count := Binary64.ofNat
    let q : Qubo Binary64 :=
      ⟨4, #v[count 1, -count 4, -count 3, -count 3, 0, count 2, -count 6, -count 5,
        0, 0, count 1, count 1, 0, 0, 0, count 1]⟩
    let limits := Limits.uniform 40
    let x : Assignment 4 := #v[true, false, false, false]
    let g : Scripted :=
      ⟨#[5, 0x9e3779b97f4a7c15, 0xdeadbeefcafebabe, 0x123456789abcdef0], by decide, 0⟩
    let near : Target Binary64 := ⟨count 2, true⟩
    let far : Target Binary64 := ⟨count 4, true⟩
    ∃ found g', TabuSearch.run limits ⟨3, none, 2⟩ q x Effort.zero 20 g = some (.ok found, g') ∧
      found.outcome.bestTrace = [count 1] ++ count 2 :: [count 3] ∧
      (∀ before ∈ [count 1], near.isMet before = false) ∧ near.isMet (count 2) = true ∧
      (∀ energy ∈ found.outcome.bestTrace, far.isMet energy = false) ∧
      TabuSearch.run limits ⟨3, some far, 2⟩ q x Effort.zero 20 g = some (.ok found, g') ∧
      ∃ cut h, TabuSearch.run limits ⟨3, some near, 2⟩ q x Effort.zero 20 g = some (.ok cut, h) ∧
        (cut.outcome.targetReached, cut.outcome.bestTrace) = (true, [count 1, count 2]) ∧
        ∃ fits : 4 ≤ q.size, ∀ y,
          Records ⟨3, none, 2⟩ limits fits x Effort.zero 20 g [count 1, count 2] y ↔
            y = cut.bits := by
  intro count q limits x g near far
  have reported : ((TabuSearch.run limits ⟨3, none, 2⟩ q x Effort.zero 20 g).map fun result =>
      result.1.toOption.map fun found => found.outcome.bestTrace) =
        some (some [count 1, count 2, count 3]) := by
    decide +kernel
  have short : ∀ before ∈ [count 1], near.isMet before = false := by decide +kernel
  have enough : near.isMet (count 2) = true := by decide +kernel
  obtain ⟨found, g', ends, trace_eq⟩ := Attempt.exists_ok_of_report reported
  have none_met : ∀ energy ∈ found.outcome.bestTrace, far.isMet energy = false := by
    rw [trace_eq]
    decide +kernel
  obtain ⟨whole, h', returns', kept, _⟩ := run_of_target 3 2 far ends
  obtain ⟨cut, h, returns, _, cuts⟩ := run_of_target 3 2 near ends
  obtain ⟨rfl, rfl, _⟩ := kept none_met
  obtain ⟨reached, cut_eq, fits, records⟩ := cuts _ _ _ trace_eq short enough
  exact ⟨whole, h', ends, trace_eq, short, enough, none_met, returns', cut, h, returns,
    Prod.ext reached cut_eq, fits, records⟩

end TabuSearch

end BinaryQuadratic
