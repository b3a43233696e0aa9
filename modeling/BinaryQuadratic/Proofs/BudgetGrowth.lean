import BinaryQuadratic.Proofs.Progression

set_option autoImplicit false

/-! A larger budget goes on where a smaller one ends. When the ceiling cannot be moved, nothing but the
end of the search depends on it, so the two searches go through the same states until the smaller
budget is spent. -/

namespace BinaryQuadratic

variable {α γ : Type} [Coefficient α] [Generator γ] {q : Qubo α} {n : Nat}

theorem Budget.improved_of_none_left {b : Budget} (none_left : b.extensionsLeft = 0)
    (effort : Effort) : b.improved effort = b := by
  unfold improved
  rw [if_neg fun late => absurd late.2 (by omega)]

namespace SearchState

variable {limits : Limits} {target : Option (Target α)} {s s' : SearchState q n} {g g' : γ}

/-- An iteration under another budget that cannot be moved, with a ceiling that is not higher. -/
theorem Iterates.under {budget : Budget} (step : Iterates limits target s g s' g')
    (fixed : s.budget.extensionsLeft = 0) (fixed' : budget.extensionsLeft = 0)
    (lower : budget.ceiling ≤ s.budget.ceiling) :
    s'.budget = s.budget ∧
      Iterates limits target { s with budget } g { s' with budget } g' := by
  cases step with
  | reaches found counted climbs met => exact ⟨rfl, .reaches found counted climbs met⟩
  | @improves v left walk g₁ found counted climbs unmet bounded =>
      have kept := Budget.improved_of_none_left fixed walk.effort
      have kept' := Budget.improved_of_none_left fixed' walk.effort
      have bounded' : (budget.improved walk.effort).checked walk.effort = .ok () := by
        rw [kept, Budget.checked_eq_ok_iff] at bounded
        rw [kept', Budget.checked_eq_ok_iff]
        exact Nat.le_trans lower bounded
      have step' : Iterates limits target { s with budget } g _ _ :=
        .improves found counted climbs unmet bounded'
      rw [kept'] at step'
      rw [kept]
      exact ⟨rfl, step'⟩
  | diverts found counted => exact ⟨rfl, .diverts found counted⟩
  | idles found => exact ⟨rfl, .idles found⟩

/-- The same state under a budget that cannot be moved either and has a ceiling that is not higher. -/
structure Tightened (budget : Budget) (a b : SearchState q n × γ) : Prop where
  alike : b = ({ a.1 with budget }, a.2)
  fixed : a.1.budget.extensionsLeft = 0
  lower : budget.ceiling ≤ a.1.budget.ceiling

variable {budget : Budget} {a b a' : SearchState q n × γ}

omit [Coefficient α] [Generator γ] in
theorem Tightened.finished (tightened : Tightened budget a b) (ends : a.1.isFinished = true) :
    b.1.isFinished = true := by
  obtain ⟨rfl, _, lower⟩ := tightened
  simp only [isFinished, Budget.isSpent, Bool.or_eq_true, decide_eq_true_eq] at ends ⊢
  exact ends.imp_right (Nat.le_trans lower)

theorem Tightened.follows (fixed' : budget.extensionsLeft = 0) (tightened : Tightened budget a b)
    (advance : Proceeds limits target a a') (goes : b.1.isFinished = false) :
    ∃ b', Proceeds limits target b b' ∧ Tightened budget a' b' := by
  obtain ⟨rfl, fixed, lower⟩ := tightened
  obtain ⟨kept, step⟩ := (Proceeds.iterates advance).under fixed fixed' lower
  rw [← kept] at fixed lower
  exact ⟨({ a'.1 with budget }, a'.2), ⟨goes, iterate_of_iterates step⟩, rfl, fixed, lower⟩

end SearchState

namespace TabuSearch

variable {p : TabuSearch α} {limits : Limits} {x : Assignment n} {effort : Effort}
  {ceiling larger : Nat} {g g' : γ}

/-- A search whose ceiling cannot be moved, beside the same search with a lower ceiling: the record is
continued, the counts go on, and if the search with the lower ceiling has reached the target, there is
nothing to continue. -/
theorem run_of_larger_ceiling {more : Searched α n} (fixed : p.maxExtensions = 0)
    (higher : ceiling ≤ larger) (ends : p.run limits q x effort larger g = some (.ok more, g')) :
    ∃ less h, p.run limits q x effort ceiling g = some (.ok less, h) ∧
      less.outcome.bestTrace <+: more.outcome.bestTrace ∧
      less.outcome.flips ≤ more.outcome.flips ∧
      less.outcome.iterations ≤ more.outcome.iterations ∧
      less.outcome.moves ≤ more.outcome.moves ∧
      (less.outcome.targetReached = true → h = g' ∧
        more = { less with outcome := { less.outcome with ceiling := more.outcome.ceiling } }) := by
  obtain ⟨fits, ⟨empty, rfl, same⟩ | ⟨some_variable, walk, g₀, last, climbs, repeats, rfl⟩⟩ :=
    run_eq_ok_iff.mp ends
  · exact ⟨_, _, run_eq_ok_iff.mpr ⟨fits, Or.inl ⟨empty, rfl, rfl⟩⟩, List.prefix_rfl, Nat.le_refl _,
      Nat.le_refl _, Nat.le_refl _, fun _ => ⟨same.symm, rfl⟩⟩
  · obtain ⟨finished, path⟩ := repeatUntil.reaches repeats
    have tightened : SearchState.Tightened (Budget.ofCeiling ceiling walk.effort p.maxExtensions)
        (SearchState.ofWalk p larger walk, g₀) (SearchState.ofWalk p ceiling walk, g₀) :=
      ⟨rfl, fixed, higher⟩
    obtain ⟨middle, ⟨last', h⟩, repeats', before, after, alike, _, _⟩ :=
      repeatUntil.alongside (R := SearchState.Tightened _) SearchState.Tightened.finished
        (fun tightened advance _ goes => tightened.follows fixed advance goes) tightened repeats
    cases alike
    have grows := SearchState.Leads.grows after
    have counted : middle.1.iterations ≤ greatestWord :=
      ((SearchState.Leads.grows before).iterations (Nat.zero_le _)).2
    refine ⟨_, _, run_of_course some_variable climbs repeats', grows.trace,
      Nat.sub_le_sub_right grows.total _, (grows.iterations counted).1, grows.moves, ?_⟩
    intro reached
    have ended : middle.1.isFinished = true := Bool.or_eq_true_iff.mpr (Or.inl reached)
    cases Reaches.eq_of_finished after ended
    exact ⟨rfl, rfl⟩

theorem run_of_larger_ceiling_before_and_after_the_target :
    let count := Binary64.ofNat
    let q : Qubo Binary64 :=
      ⟨4, #v[count 1, -count 4, -count 3, -count 3, 0, count 2, -count 6, -count 5,
        0, 0, count 1, count 1, 0, 0, 0, count 1]⟩
    let p : TabuSearch Binary64 := ⟨3, some ⟨count 3, true⟩, 0⟩
    let limits := Limits.uniform 40
    let x : Assignment 4 := #v[true, false, false, false]
    let g : Scripted :=
      ⟨#[5, 0x9e3779b97f4a7c15, 0xdeadbeefcafebabe, 0x123456789abcdef0], by decide, 0⟩
    p.maxExtensions = 0 ∧ 14 ≤ 23 ∧ 23 ≤ 32 ∧ ∃ least g₁ less g₂ more,
      p.run limits q x ⟨5⟩ 14 g = some (.ok least, g₁) ∧
      p.run limits q x ⟨5⟩ 23 g = some (.ok less, g₂) ∧
      p.run limits q x ⟨5⟩ 32 g = some (.ok more, g₂) ∧
      (least.outcome.bestTrace, least.outcome.targetReached) = ([count 1, count 2], false) ∧
      (less.outcome.bestTrace, less.outcome.targetReached) =
        ([count 1, count 2, count 3], true) ∧
      least.outcome.bestTrace <+: less.outcome.bestTrace ∧
      least.outcome.flips ≤ less.outcome.flips ∧
      least.outcome.iterations ≤ less.outcome.iterations ∧
      least.outcome.moves ≤ less.outcome.moves ∧
      more = { less with outcome := { less.outcome with ceiling := more.outcome.ceiling } } := by
  intro count q p limits x g
  have least_reported : ((p.run limits q x ⟨5⟩ 14 g).map fun result =>
      result.1.toOption.map fun found => (found.outcome.bestTrace, found.outcome.targetReached)) =
        some (some ([count 1, count 2], false)) := by
    decide +kernel
  have less_reported : ((p.run limits q x ⟨5⟩ 23 g).map fun result =>
      result.1.toOption.map fun found => (found.outcome.bestTrace, found.outcome.targetReached)) =
        some (some ([count 1, count 2, count 3], true)) := by
    decide +kernel
  have more_reported : ((p.run limits q x ⟨5⟩ 32 g).map fun result =>
      result.1.toOption.map fun found => found.outcome.ceiling) = some (some 32) := by
    decide +kernel
  obtain ⟨least, g₁, least_ends, least_values⟩ := Attempt.exists_ok_of_report least_reported
  obtain ⟨less, g₂, less_ends, less_values⟩ := Attempt.exists_ok_of_report less_reported
  obtain ⟨more, g₃, more_ends, _⟩ := Attempt.exists_ok_of_report more_reported
  have fixed : p.maxExtensions = 0 := rfl
  obtain ⟨_, _, least_ends', trace, flips, iterations, moves, _⟩ :=
    run_of_larger_ceiling fixed (by decide : 14 ≤ 23) less_ends
  obtain ⟨_, _, less_ends', _, _, _, _, continued⟩ :=
    run_of_larger_ceiling fixed (by decide : 23 ≤ 32) more_ends
  cases least_ends.symm.trans least_ends'
  cases less_ends.symm.trans less_ends'
  obtain ⟨rfl, same⟩ := continued (congrArg Prod.snd less_values)
  exact ⟨fixed, by decide, by decide, least, g₁, less, _, more, least_ends, less_ends, more_ends,
    least_values, less_values, trace, flips, iterations, moves, same⟩

end TabuSearch

end BinaryQuadratic
