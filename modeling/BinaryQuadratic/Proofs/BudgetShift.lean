import BinaryQuadratic.Proofs.Progression

set_option autoImplicit false

/-! A search depends on the effort that is left, and not on what was spent before. With more counted
before it and a ceiling that is higher by as much, a search goes through the same states, each with
that much more counted. -/

namespace BinaryQuadratic

variable {α γ : Type} [Coefficient α] [Generator γ] {q : Qubo α} {n : Nat}

def Effort.after (count : Nat) (effort : Effort) : Effort := ⟨count + effort.total⟩

def Walk.after (count : Nat) (walk : Walk q n) : Walk q n := ⟨walk.current, walk.effort.after count⟩

def Scan.after (count : Nat) : Scan α n → Scan α n
  | .improving v effort => .improving v (effort.after count)
  | .exhausted nearMiss effort => .exhausted nearMiss (effort.after count)

def Budget.after (count : Nat) (b : Budget) : Budget := { b with ceiling := count + b.ceiling }

def SearchState.after (count : Nat) (s : SearchState q n) : SearchState q n :=
  { s with walk := s.walk.after count, budget := s.budget.after count }

theorem Effort.checked_after {count : Nat} {effort : Effort}
    (within : count + effort.total ≤ greatestWord) : (effort.after count).checked = .ok () :=
  if_pos within

namespace Walk

variable {count : Nat} {last : Walk q n} {g g' : γ}

omit [Generator γ] in
theorem visit_after (count : Nat) (walk : Walk q n) (toggled : List (Fin n)) (v : Fin n) :
    visit (walk.after count, toggled) v =
      ((visit (walk, toggled) v).1.after count, (visit (walk, toggled) v).2) := by
  by_cases raises : 0 < walk.current.costs.get v
  · have raises' : 0 < (walk.after count).current.costs.get v := raises
    rw [visit_of_pos raises, visit_of_pos raises']
    rfl
  · have lowers : ¬0 < (walk.after count).current.costs.get v := raises
    rw [visit_of_not_pos raises, visit_of_not_pos lowers]
    rfl

omit [Generator γ] in
theorem sweep_after (count : Nat) (walk : Walk q n) (order : List (Fin n)) :
    (walk.after count).sweep order = ((walk.sweep order).1.after count, (walk.sweep order).2) :=
  sweep_of_visits (after count) (visit_after count) walk order

theorem climbFrom_after {redraws sweeps : Nat} {order : Vector (Fin n) n} {walk : Walk q n}
    (ends : climbFrom redraws sweeps order walk g = some (.ok last, g'))
    (within : count + last.effort.total ≤ greatestWord) :
    climbFrom redraws sweeps order (walk.after count) g = some (.ok (last.after count), g') := by
  induction sweeps generalizing order walk g with
  | zero => cases ends
  | succ sweeps ih =>
      obtain ⟨swept, g₁, shuffled, _, rest⟩ := climbFrom_succ_eq_ok_iff.mp ends
      rw [climbFrom_succ_eq_ok_iff]
      refine ⟨swept, g₁, shuffled, ?_⟩
      rw [sweep_after]
      rcases rest with ⟨none_toggled, rfl, rfl⟩ | ⟨some_toggled, ends⟩
      · exact ⟨Effort.checked_after within, Or.inl ⟨none_toggled, rfl, rfl⟩⟩
      · have before := (total_of_climbFrom ends).1
        exact ⟨Effort.checked_after (by omega), Or.inr ⟨some_toggled, ih ends⟩⟩

theorem climb_after {limits : Limits} {walk : Walk q n}
    (ends : climb limits walk g = some (.ok last, g'))
    (within : count + last.effort.total ≤ greatestWord) :
    climb limits (walk.after count) g = some (.ok (last.after count), g') :=
  climbFrom_after ends within

end Walk

namespace Budget

theorem isSpent_after (count : Nat) (b : Budget) (effort : Effort) :
    (b.after count).isSpent (effort.after count) = b.isSpent effort :=
  decide_eq_decide.mpr Nat.add_le_add_iff_left

theorem usedShare_after (count : Nat) (b : Budget) (effort : Effort) :
    (b.after count).usedShare (effort.after count) = b.usedShare effort := by
  have left : (b.after count).ceiling - (effort.after count).total = b.ceiling - effort.total :=
    Nat.add_sub_add_left count b.ceiling effort.total
  unfold usedShare
  rw [left]
  rfl

theorem improved_after (count : Nat) (b : Budget) (effort : Effort) :
    (b.after count).improved (effort.after count) = (b.improved effort).after count := by
  have extensions : (b.after count).extensionsLeft = b.extensionsLeft := rfl
  unfold improved
  rw [usedShare_after, extensions]
  by_cases late : extendAfter ≤ b.usedShare effort ∧ 0 < b.extensionsLeft
  · rw [if_pos late, if_pos late]
    simp only [after, Nat.add_assoc]
  · rw [if_neg late, if_neg late]

theorem ofCeiling_after (count ceiling : Nat) (effort : Effort) (extensions : Nat) :
    ofCeiling (count + ceiling) (effort.after count) extensions =
      (ofCeiling ceiling effort extensions).after count := by
  have window : count + ceiling - (effort.after count).total = ceiling - effort.total :=
    Nat.add_sub_add_left count ceiling effort.total
  simp only [ofCeiling, after, window]

end Budget

/-! ### Iterations -/

namespace SearchState

variable {limits : Limits} {target : Option (Target α)} {s s' : SearchState q n} {g g' : γ}
  {count : Nat}

omit [Generator γ] in
theorem scan_after (count : Nat) (tabu : TabuList n) (current : Tracked q n) (best : α)
    (order : List (Fin n)) (held : Option (Fin n × α)) (effort : Effort) :
    scan tabu current best order held (effort.after count) =
      (scan tabu current best order held effort).after count := by
  induction order generalizing held effort with
  | nil => rfl
  | cons v rest ih =>
      unfold scan
      cases tabu.forbids v with
      | true => exact ih held effort
      | false =>
          by_cases better : best < current.energy + current.costs.get v
          · simp only [Bool.false_eq_true, if_false, if_pos better]
            rfl
          · simp only [Bool.false_eq_true, if_false, if_neg better]
            exact ih _ effort.tick

omit [Generator γ] in
theorem scanned_after (count : Nat) (s : SearchState q n) :
    (s.after count).scanned = s.scanned.after count :=
  scan_after count s.tabu s.walk.current s.bestEnergy s.order none s.walk.effort

omit [Coefficient α] [Generator γ] in
theorem isFinished_after (count : Nat) (s : SearchState q n) :
    (s.after count).isFinished = s.isFinished := by
  have spent := s.budget.isSpent_after count s.walk.effort
  unfold isFinished
  exact congrArg (s.targetReached || ·) spent

theorem Iterates.after (step : Iterates limits target s g s' g')
    (within : count + s'.walk.effort.total ≤ greatestWord)
    (below : count + s'.budget.ceiling ≤ greatestWord) :
    Iterates limits target (s.after count) g (s'.after count) g' := by
  have scans := s.scanned_after count
  cases step with
  | @reaches v left walk _ found counted climbs met =>
      rw [found] at scans
      have onward : left.total ≤ walk.effort.total := (Walk.total_of_climb climbs).1
      have within : count + walk.effort.total ≤ greatestWord := within
      exact .reaches scans (Effort.checked_after (by omega)) (Walk.climb_after climbs within) met
  | @improves v left walk g₁ found counted climbs unmet bounded =>
      rw [found] at scans
      have onward : left.total ≤ walk.effort.total := (Walk.total_of_climb climbs).1
      have within : count + walk.effort.total ≤ greatestWord := within
      have improved : (s.after count).budget.improved (walk.after count).effort =
          (s.budget.improved walk.effort).after count := s.budget.improved_after count walk.effort
      have bounded' : ((s.after count).budget.improved (walk.after count).effort).checked
          (walk.after count).effort = .ok () := by
        rw [improved, Budget.checked_eq_ok_iff]
        exact below
      have step' : Iterates limits target (s.after count) g _ _ :=
        .improves scans (Effort.checked_after (by omega)) (Walk.climb_after climbs within) unmet
          bounded'
      rw [improved] at step'
      -- Whether the budget is extended is the same on both sides, so it need not be looked at.
      generalize s.budget.improved walk.effort = budget at step' ⊢
      exact step'
  | diverts found counted =>
      rw [found] at scans
      exact .diverts scans (Effort.checked_after within)
  | idles found =>
      rw [found] at scans
      exact .idles scans

/-- The same state with `count` more counted before, and the same generator. -/
def Shifted (count : Nat) (a b : SearchState q n × γ) : Prop := b = (a.1.after count, a.2)

omit [Coefficient α] [Generator γ] in
theorem Shifted.isFinished_eq {a b : SearchState q n × γ} (shifted : Shifted count a b) :
    b.1.isFinished = a.1.isFinished := by
  cases shifted
  exact a.1.isFinished_after count

theorem Shifted.follows {a b a' last : SearchState q n × γ} (shifted : Shifted count a b)
    (advance : Proceeds limits target a a') (rest : Leads limits target a' last)
    (within : count + last.1.walk.effort.total ≤ greatestWord)
    (below : count + last.1.budget.ceiling ≤ greatestWord) :
    ∃ b', Proceeds limits target b b' ∧ Shifted count a' b' := by
  have goes : b.1.isFinished = false := shifted.isFinished_eq.trans advance.1
  have grows := rest.grows
  have counted : count + a'.1.walk.effort.total ≤ greatestWord :=
    Nat.le_trans (Nat.add_le_add_left grows.total count) within
  have bounded : count + a'.1.budget.ceiling ≤ greatestWord :=
    Nat.le_trans (Nat.add_le_add_left grows.ceiling count) below
  have step := (Proceeds.iterates advance).after counted bounded
  cases shifted
  exact ⟨_, ⟨goes, iterate_of_iterates step⟩, rfl⟩

end SearchState

namespace TabuSearch

variable {p : TabuSearch α} {limits : Limits} {x : Assignment n} {effort : Effort}
  {ceiling : Nat} {g g' : γ}

omit [Generator γ] in
theorem ofWalk_after (count : Nat) (p : TabuSearch α) (ceiling : Nat) (walk : Walk q n) :
    SearchState.ofWalk p (count + ceiling) (walk.after count) =
      (SearchState.ofWalk p ceiling walk).after count := by
  have shifted : SearchState.ofWalk p (count + ceiling) (walk.after count) =
      { SearchState.ofWalk p ceiling walk with
        walk := walk.after count
        budget := Budget.ofCeiling (count + ceiling) (walk.effort.after count) p.maxExtensions } :=
    rfl
  rw [shifted, Budget.ofCeiling_after]
  rfl

omit [Generator γ] in
theorem outcome_searched_after (count : Nat) (s : SearchState q n) (start : Effort) :
    ((s.after count).searched (start.after count)).outcome =
      { (s.searched start).outcome with ceiling := count + s.budget.ceiling } := by
  have flips : count + s.walk.effort.total - (count + start.total) =
      s.walk.effort.total - start.total := Nat.add_sub_add_left count _ _
  unfold SearchState.searched
  rw [← flips]
  rfl

/-- With `count` more counted before a search and a ceiling higher by `count`, the search has the same
course and report. It ends with `count` more counted, under a ceiling higher by `count`, as long as these
two stay within a word. -/
theorem run_after (count : Nat) {found : Searched α n}
    (ends : p.run limits q x effort ceiling g = some (.ok found, g'))
    (within : count + found.effort.total ≤ greatestWord)
    (below : count + found.outcome.ceiling ≤ greatestWord) :
    ∃ later, p.run limits q x ⟨count + effort.total⟩ (count + ceiling) g = some (.ok later, g') ∧
      later.bits = found.bits ∧
      later.outcome = { found.outcome with ceiling := count + found.outcome.ceiling } ∧
      later.effort.total = count + found.effort.total := by
  obtain ⟨fits, ⟨empty, rfl, rfl⟩ | ⟨some_variable, walk, g₀, last, climbs, repeats, rfl⟩⟩ :=
    run_eq_ok_iff.mp ends
  · exact ⟨_, run_eq_ok_iff.mpr ⟨fits, Or.inl ⟨empty, rfl, rfl⟩⟩, rfl, rfl, rfl⟩
  · obtain ⟨finished, path⟩ := repeatUntil.reaches repeats
    have counted : count + walk.effort.total ≤ greatestWord :=
      Nat.le_trans (Nat.add_le_add_left (SearchState.Leads.grows path).total count) within
    have start : SearchState.Shifted count (SearchState.ofWalk p ceiling walk, g₀)
        (SearchState.ofWalk p (count + ceiling) (walk.after count), g₀) :=
      congrArg (·, g₀) (ofWalk_after count p ceiling walk)
    obtain ⟨state, ⟨last', h⟩, repeats', _, rest, alike⟩ :=
      repeatUntil.alongside (R := SearchState.Shifted count)
        (fun shifted ends => shifted.isFinished_eq.trans ends)
        (fun shifted advance rest _ => shifted.follows advance rest within below) start repeats
    have ended : state.1.isFinished = true :=
      alike.isFinished_eq.symm.trans (repeatUntil.reaches repeats').1
    cases Reaches.eq_of_finished rest ended
    cases alike
    exact ⟨_, run_of_course some_variable (Walk.climb_after climbs counted) repeats', rfl,
      outcome_searched_after count last effort, rfl⟩

theorem run_after_up_to_the_greatest_word :
    let number := Binary64.ofNat
    let q : Qubo Binary64 :=
      ⟨4, #v[number 1, -number 4, -number 3, -number 3, 0, number 2, -number 6, -number 5,
        0, 0, number 1, number 1, 0, 0, 0, number 1]⟩
    let p : TabuSearch Binary64 := ⟨3, none, 2⟩
    let limits := Limits.uniform 40
    let x : Assignment 4 := #v[true, false, false, false]
    let g : Scripted :=
      ⟨#[5, 0x9e3779b97f4a7c15, 0xdeadbeefcafebabe, 0x123456789abcdef0], by decide, 0⟩
    let count := greatestWord - 36
    ∃ found g', p.run limits q x Effort.zero 20 g = some (.ok found, g') ∧
      (found.effort.total, found.outcome.ceiling, found.outcome.flips) = (36, 36, 36) ∧
      count + found.effort.total ≤ greatestWord ∧ count + found.outcome.ceiling ≤ greatestWord ∧
      ∃ later, p.run limits q x ⟨count⟩ (count + 20) g = some (.ok later, g') ∧
        later.bits = found.bits ∧
        later.outcome = { found.outcome with ceiling := count + found.outcome.ceiling } ∧
        later.effort.total = greatestWord := by
  intro number q p limits x g count
  have reported : ((p.run limits q x Effort.zero 20 g).map fun result =>
      result.1.toOption.map fun found =>
        (found.effort.total, found.outcome.ceiling, found.outcome.flips)) =
          some (some (36, 36, 36)) := by
    decide +kernel
  obtain ⟨found, g', ends, values⟩ := Attempt.exists_ok_of_report reported
  have total : found.effort.total = 36 := congrArg Prod.fst values
  have ceiling : found.outcome.ceiling = 36 := congrArg (·.2.1) values
  have within : count + found.effort.total ≤ greatestWord := by
    rw [total]
    decide
  have below : count + found.outcome.ceiling ≤ greatestWord := by
    rw [ceiling]
    decide
  obtain ⟨later, returns, bits, outcome, spent⟩ := run_after count ends within below
  refine ⟨found, g', ends, values, within, below, later, returns, bits, outcome, ?_⟩
  rw [spent, total]
  decide

end TabuSearch

end BinaryQuadratic
