import BinaryQuadratic.Proofs.SearchLength

set_option autoImplicit false

/-! What only grows in the course of a search: the record, the effort and the ceiling on it, and the
counts of iterations and moves. What is true of the end of a search bounds what came before. -/

namespace BinaryQuadratic

variable {α γ : Type} [Coefficient α] [Generator γ] {q : Qubo α} {n : Nat}

namespace Budget

theorem checked_eq_ok_iff (b : Budget) (effort : Effort) :
    b.checked effort = .ok () ↔ b.ceiling ≤ greatestWord := by
  unfold checked
  by_cases within : b.ceiling ≤ greatestWord
  · exact iff_of_true (if_pos within) within
  · rw [if_neg within]
    exact iff_of_false (fun absent => by cases absent) within

theorem ceiling_le_improved (b : Budget) (effort : Effort) :
    b.ceiling ≤ (b.improved effort).ceiling := by
  unfold improved
  by_cases late : extendAfter ≤ b.usedShare effort ∧ 0 < b.extensionsLeft
  · rw [if_pos late]
    exact Nat.le_add_right _ _
  · exact Nat.le_of_eq (congrArg ceiling (if_neg late)).symm

end Budget

namespace SearchState

/-- `s'` is not behind `s`. The iterations are counted up to the greatest word. -/
structure Grows (s s' : SearchState q n) : Prop where
  trace : s.trace <+: s'.trace
  total : s.walk.effort.total ≤ s'.walk.effort.total
  ceiling : s.budget.ceiling ≤ s'.budget.ceiling
  iterations : s.iterations ≤ greatestWord →
    s.iterations ≤ s'.iterations ∧ s'.iterations ≤ greatestWord
  moves : s.moves ≤ s'.moves

omit [Coefficient α] in
theorem Grows.refl (s : SearchState q n) : s.Grows s :=
  ⟨List.prefix_rfl, Nat.le_refl _, Nat.le_refl _, fun counted => ⟨Nat.le_refl _, counted⟩,
    Nat.le_refl _⟩

omit [Coefficient α] in
theorem Grows.trans {a b c : SearchState q n} (first : a.Grows b) (second : b.Grows c) :
    a.Grows c := by
  refine ⟨first.trace.trans second.trace, Nat.le_trans first.total second.total,
    Nat.le_trans first.ceiling second.ceiling, ?_, Nat.le_trans first.moves second.moves⟩
  intro counted
  obtain ⟨more, counted⟩ := first.iterations counted
  obtain ⟨still_more, counted⟩ := second.iterations counted
  exact ⟨Nat.le_trans more still_more, counted⟩

omit [Coefficient α] in
theorem iterations_countIterations (s : SearchState q n) (count : Nat)
    (counted : s.iterations ≤ greatestWord) :
    s.iterations ≤ (s.countIterations count).iterations ∧
      (s.countIterations count).iterations ≤ greatestWord :=
  ⟨Nat.le_min.mpr ⟨Nat.le_add_right _ _, counted⟩, Nat.min_le_right _ _⟩

variable {limits : Limits} {target : Option (Target α)} {s s' : SearchState q n} {g g' : γ}

theorem Iterates.grows (step : Iterates limits target s g s' g') : s.Grows s' := by
  have counts := s.iterations_countIterations 1
  cases step with
  | reaches found counted climbs met =>
      have spent := Nat.le_of_lt (total_lt_of_improving found)
      exact ⟨List.prefix_append _ _, Nat.le_trans spent (Walk.total_of_climb climbs).1,
        Nat.le_refl _, counts, Nat.le_succ _⟩
  | @improves _ _ walk _ found counted climbs unmet bounded =>
      have spent := Nat.le_of_lt (total_lt_of_improving found)
      have raised := s.budget.ceiling_le_improved walk.effort
      generalize s.budget.improved walk.effort = budget at raised
      exact ⟨List.prefix_append _ _, Nat.le_trans spent (Walk.total_of_climb climbs).1, raised,
        counts, Nat.le_succ _⟩
  | diverts found counted =>
      exact ⟨List.prefix_rfl, Nat.le_of_lt (total_lt_of_exhausted found), Nat.le_refl _, counts,
        Nat.le_succ _⟩
  | idles found =>
      refine ⟨List.prefix_rfl, Nat.le_refl _, Nat.le_refl _, ?_, Nat.le_refl _⟩
      intro counted
      obtain ⟨once, counted⟩ := counts counted
      obtain ⟨more, counted⟩ := (s.countIterations 1).iterations_countIterations
        (s.tabu.shortest - 1) counted
      exact ⟨Nat.le_trans once more, counted⟩

theorem Leads.grows {a b : SearchState q n × γ} (path : Leads limits target a b) :
    a.1.Grows b.1 := by
  refine Leads.preserves path ?_ (.refl a.1)
  intro s s' g g' grown _ step
  exact grown.trans step.grows

end SearchState

end BinaryQuadratic
