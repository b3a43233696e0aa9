import BinaryQuadratic.Proofs.SearchLength
import BinaryQuadratic.Random.KeyStream

set_option autoImplicit false

/-! When an improvement moves the ceiling. The share of the window that is used is found by a division
and a subtraction in double precision. Their roundings never mistake less than a fifth for more, but
exactly a fifth comes out below the limit. -/

namespace BinaryQuadratic

namespace Budget

variable {b : Budget} {effort : Effort}

/-- Counts in the exact proportion of four to five are rounded to a used share below a fifth. Any
other proportion of counts is further from it than the roundings reach. -/
theorem extendAfter_le_usedShare_iff (some_window : 0 < b.window)
    (few : b.window < 0x20000000000000) (within : b.ceiling - effort.total ≤ b.window) :
    extendAfter ≤ b.usedShare effort ↔ 5 * (b.ceiling - effort.total) < 4 * b.window := by
  unfold usedShare
  generalize b.ceiling - effort.total = left at within
  generalize b.window = window at some_window few within
  rw [Binary64.ofNat_div_ofNat (by omega) few some_window]
  let share := Binary64.ofFraction false left window
  let fourFifths := Binary64.ofFraction false 4 5
  have whole : share.magnitude ≤ (1 : Binary64).magnitude :=
    Binary64.magnitude_ofFraction_le some_window Nat.one_pos (by omega)
  constructor
  · intro late
    by_contra early
    have above : fourFifths.magnitude ≤ share.magnitude :=
      Binary64.magnitude_ofFraction_le (by decide) some_window (by omega)
    have used : 1 - share ≤ 1 - fourFifths := Binary64.one_sub_le_one_sub rfl rfl above whole
    have short : 1 - fourFifths < extendAfter := by decide +kernel
    exact Binary64.not_le_of_lt short (Binary64.le_trans late used)
  · intro less
    let closest := Binary64.ofFraction false (4 * 0x20000000000000 - 1) (5 * 0x20000000000000)
    have below : share.magnitude ≤ closest.magnitude :=
      Binary64.magnitude_ofFraction_le some_window (by decide) (by omega)
    have closest_le : closest.magnitude ≤ (1 : Binary64).magnitude := by decide +kernel
    have enough : extendAfter ≤ 1 - closest := by decide +kernel
    exact Binary64.le_trans enough (Binary64.one_sub_le_one_sub rfl rfl below closest_le)

/-- The window reaches from the end of the first local search to the ceiling. -/
theorem Extends.window_eq_sub {ceiling extensions count : Nat} {begun : Effort} {b : Budget}
    (extension : (ofCeiling ceiling begun extensions).Extends b count)
    (some_window : begun.total < ceiling) : b.window = b.ceiling - begun.total := by
  have window_eq : b.window = ceiling - begun.total + count * ((ceiling - begun.total) / 2) :=
    extension.window_eq
  have ceiling_eq : b.ceiling = ceiling + count * ((ceiling - begun.total) / 2) :=
    extension.ceiling_eq
  omega

theorem improved_of_extends {ceiling extensions count : Nat} {begun : Effort}
    (extension : (ofCeiling ceiling begun extensions).Extends b count)
    (some_window : begun.total < ceiling) (onward : begun.total ≤ effort.total)
    (few : b.ceiling - begun.total < 0x20000000000000) :
    b.improved effort =
      if b.ceiling - begun.total < 5 * (effort.total - begun.total) ∧ 0 < b.extensionsLeft then
        { b with
          ceiling := b.ceiling + (ceiling - begun.total) / 2
          window := b.window + (ceiling - begun.total) / 2
          extensionsLeft := b.extensionsLeft - 1 }
      else b := by
  have window_eq := extension.window_eq_sub some_window
  have ceiling_eq := extension.ceiling_eq
  have increment_eq : b.increment = (ceiling - begun.total) / 2 := extension.increment_eq
  have higher : ceiling ≤ b.ceiling := by
    rw [ceiling_eq]
    exact Nat.le_add_right _ _
  have late_iff : extendAfter ≤ b.usedShare effort ↔
      b.ceiling - begun.total < 5 * (effort.total - begun.total) := by
    rw [extendAfter_le_usedShare_iff (by omega) (by omega) (by omega), window_eq]
    omega
  unfold improved
  simp only [late_iff, increment_eq]

end Budget

namespace TabuSearch

variable {α γ : Type} [Coefficient α] [Generator γ] {q : Qubo α} {n : Nat}

/-- At an improvement that does not reach the target, let `ceiling` be moved already to `bound`, for
each extension made by half of the first window. It is moved up once more by as much if an extension
is left and more than a fifth of what lies between the first local search and `bound` has been used;
otherwise it stays. -/
theorem ceiling_of_improvement (p : TabuSearch α) (limits : Limits) (fits : n ≤ q.size)
    (x : Assignment n) (effort : Effort) (ceiling : Nat) (g : γ) {walk : Walk q n} {g₀ : γ}
    (climbs : Walk.climb limits ⟨Tracked.ofAssignmentWithin q fits x, effort⟩ g =
      some (.ok walk, g₀))
    {head : SearchState q n × γ} (starts : p.Heads limits fits x effort ceiling g head) {v : Fin n}
    {left : Effort} (found : head.1.scanned = .improving v left) {improved : Walk q n} {g₁ : γ}
    (ascends : Walk.climb limits ⟨head.1.walk.current.flip v, left⟩ head.2 =
      some (.ok improved, g₁))
    (unmet : Target.reached p.target improved.current.energy = false)
    (low : head.1.budget.ceiling < 0x8000000000000000)
    (few : head.1.budget.ceiling - walk.effort.total < 0x20000000000000) :
    let half := (ceiling - walk.effort.total) / 2
    let bound := head.1.budget.ceiling
    let extends_now := 0 < head.1.budget.extensionsLeft ∧
      bound - walk.effort.total < 5 * (improved.effort.total - walk.effort.total)
    (∃ made, head.1.budget.extensionsLeft + made = p.maxExtensions ∧ bound = ceiling + made * half) ∧
    ∃ next, SearchState.Proceeds limits p.target head next ∧ next.1.walk = improved ∧
      (extends_now → next.1.budget.ceiling = bound + half ∧
        next.1.budget.extensionsLeft + 1 = head.1.budget.extensionsLeft) ∧
      (¬extends_now → next.1.budget.ceiling = bound ∧
        next.1.budget.extensionsLeft = head.1.budget.extensionsLeft) := by
  intro half bound extends_now
  obtain ⟨_, ⟨made, extension, _⟩, begun⟩ := starts.holds climbs
  have some_window : walk.effort.total < ceiling := starts.total_lt_ceiling climbs
  have ceiling_eq : bound = ceiling + made * half := extension.ceiling_eq
  have left_eq : head.1.budget.extensionsLeft + made = p.maxExtensions := extension.left_eq
  have spent : head.1.walk.effort.total < left.total := SearchState.total_lt_of_improving found
  have ascent : left.total ≤ improved.effort.total := (Walk.total_of_climb ascends).1
  have onward : walk.effort.total ≤ improved.effort.total := by omega
  have rule := Budget.improved_of_extends extension some_window onward few
  have within : (head.1.budget.improved improved.effort).ceiling ≤ greatestWord := by
    have half_le : half ≤ bound - walk.effort.total := by omega
    rw [rule]
    unfold greatestWord
    split
    · change bound + half ≤ _
      omega
    · change bound ≤ _
      omega
  obtain ⟨next, proceeds, same_walk, budget_eq⟩ :=
    SearchState.exists_proceeds_of_improving starts.1 found ascends unmet within
  rw [rule] at budget_eq
  refine ⟨⟨made, left_eq, ceiling_eq⟩, next, proceeds, same_walk, ?_, ?_⟩
  · intro due
    rw [budget_eq, if_pos ⟨due.2, due.1⟩]
    exact ⟨rfl, Nat.sub_add_cancel due.1⟩
  · intro not_due
    rw [budget_eq, if_neg fun due => not_due ⟨due.2, due.1⟩]
    exact ⟨rfl, rfl⟩

/-- Nine of forty-four units are used when the improvement comes, more than a fifth. -/
theorem ceiling_of_improvement_past_a_fifth :
    let one := Binary64.ofNat 1
    let two := Binary64.ofNat 2
    let q : Qubo Binary64 := ⟨3, #v[-one, two, two, 0, -one, two, 0, 0, -one]⟩
    let fits : 3 ≤ q.size := by decide
    let p : TabuSearch Binary64 := ⟨5, none, 900⟩
    let limits := Limits.uniform 20
    let x := Assignment.allZero 3
    let g := KeyStream.ofSeed 6
    ∃ walk g₀ head v left improved g₁ next,
      Walk.climb limits ⟨Tracked.ofAssignmentWithin q fits x, Effort.zero⟩ g =
        some (.ok walk, g₀) ∧
      p.Heads limits fits x Effort.zero 47 g head ∧ head.1.scanned = .improving v left ∧
      Walk.climb limits ⟨head.1.walk.current.flip v, left⟩ head.2 = some (.ok improved, g₁) ∧
      Target.reached p.target improved.current.energy = false ∧
      [walk.effort.total, improved.effort.total, head.1.budget.ceiling,
        head.1.budget.extensionsLeft] = [3, 12, 47, 900] ∧
      head.1.budget.ceiling < 0x8000000000000000 ∧
      head.1.budget.ceiling - walk.effort.total < 0x20000000000000 ∧
      SearchState.Proceeds limits p.target head next ∧
      next.1.budget.ceiling = 47 + (47 - 3) / 2 := by
  intro one two q fits p limits x g
  have reported : ((p.improvementAfter limits fits x Effort.zero 47 2 g).map fun result =>
      result.1.toOption.map fun (walk, head, _, improved) =>
        [walk.effort.total, improved.effort.total, head.budget.ceiling,
          head.budget.extensionsLeft]) = some (some [3, 12, 47, 900]) := by
    decide +kernel
  obtain ⟨⟨walk, head, ⟨v, left⟩, improved⟩, g₁, ends, values⟩ :=
    Attempt.exists_ok_of_report reported
  obtain ⟨g₀, g₂, climbs, starts, found, ascends⟩ := of_improvementAfter ends
  have same := values
  simp only [List.cons.injEq, and_true] at same
  obtain ⟨begun, used, ceiling_eq, extensions⟩ := same
  have low : head.budget.ceiling < 0x8000000000000000 := by omega
  have few : head.budget.ceiling - walk.effort.total < 0x20000000000000 := by omega
  obtain ⟨_, next, proceeds, _, grown, _⟩ :=
    ceiling_of_improvement p limits fits x Effort.zero 47 g climbs starts found ascends rfl low few
  refine ⟨walk, g₀, (head, g₂), v, left, improved, g₁, next, climbs, starts, found, ascends, rfl,
    values, low, few, proceeds, ?_⟩
  have higher := (grown (by dsimp only; omega)).1
  rw [ceiling_eq, begun] at higher
  exact higher

/-- Nine of forty-five units are used, exactly a fifth, and the ceiling stays. -/
theorem exists_fifth_used_without_extension :
    let one := Binary64.ofNat 1
    let two := Binary64.ofNat 2
    let q : Qubo Binary64 := ⟨3, #v[-one, two, two, 0, -one, two, 0, 0, -one]⟩
    let fits : 3 ≤ q.size := by decide
    let p : TabuSearch Binary64 := ⟨5, none, 900⟩
    let limits := Limits.uniform 20
    let x := Assignment.allZero 3
    let g := KeyStream.ofSeed 6
    ∃ walk g₀ head v left improved g₁ next,
      Walk.climb limits ⟨Tracked.ofAssignmentWithin q fits x, Effort.zero⟩ g =
        some (.ok walk, g₀) ∧
      p.Heads limits fits x Effort.zero 48 g head ∧ head.1.scanned = .improving v left ∧
      Walk.climb limits ⟨head.1.walk.current.flip v, left⟩ head.2 = some (.ok improved, g₁) ∧
      Target.reached p.target improved.current.energy = false ∧
      [walk.effort.total, improved.effort.total, head.1.budget.ceiling,
        head.1.budget.extensionsLeft] = [3, 12, 48, 900] ∧
      5 * (improved.effort.total - walk.effort.total) =
        head.1.budget.ceiling - walk.effort.total ∧
      SearchState.Proceeds limits p.target head next ∧ next.1.budget = head.1.budget := by
  intro one two q fits p limits x g
  have reported : ((p.improvementAfter limits fits x Effort.zero 48 2 g).map fun result =>
      result.1.toOption.map fun (walk, head, _, improved) =>
        ([walk.effort.total, improved.effort.total, head.budget.ceiling,
          head.budget.extensionsLeft], decide (head.budget.improved improved.effort = head.budget))) =
      some (some ([3, 12, 48, 900], true)) := by
    decide +kernel
  obtain ⟨⟨walk, head, ⟨v, left⟩, improved⟩, g₁, ends, outcome⟩ :=
    Attempt.exists_ok_of_report reported
  obtain ⟨values, unchanged⟩ := Prod.mk.inj outcome
  obtain ⟨g₀, g₂, climbs, starts, found, ascends⟩ := of_improvementAfter ends
  have kept : head.budget.improved improved.effort = head.budget := of_decide_eq_true unchanged
  have same := values
  simp only [List.cons.injEq, and_true] at same
  obtain ⟨begun, used, ceiling_eq, extensions⟩ := same
  have within : (head.budget.improved improved.effort).ceiling ≤ greatestWord := by
    rw [kept, ceiling_eq]
    decide
  have unmet : Target.reached p.target improved.current.energy = false := rfl
  obtain ⟨next, proceeds, _, budget_eq⟩ :=
    SearchState.exists_proceeds_of_improving starts.1 found ascends unmet within
  refine ⟨walk, g₀, (head, g₂), v, left, improved, g₁, next, climbs, starts, found, ascends, rfl,
    values, ?_, proceeds, budget_eq.trans kept⟩
  rw [begun, used, ceiling_eq]

end TabuSearch

end BinaryQuadratic
