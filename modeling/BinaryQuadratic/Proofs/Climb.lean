import BinaryQuadratic.LocalSearch
import BinaryQuadratic.Proofs.Attempt

set_option autoImplicit false

/-! The course of a local search: the orders of its sweeps, one after another. Each sweep but the last
toggles something, and the last one toggles nothing. -/

namespace BinaryQuadratic.Walk

variable {α γ : Type} [Coefficient α] [Generator γ] {q : Qubo α} {n : Nat}

theorem visit_of_pos {walk : Walk q n} {v : Fin n} (raises : 0 < walk.current.costs.get v)
    (toggled : List (Fin n)) :
    visit (walk, toggled) v = (⟨walk.current.flip v, walk.effort.tick⟩, v :: toggled) :=
  if_pos raises

theorem visit_of_not_pos {walk : Walk q n} {v : Fin n} (lowers : ¬0 < walk.current.costs.get v)
    (toggled : List (Fin n)) :
    visit (walk, toggled) v = (⟨walk.current, walk.effort.tick⟩, toggled) :=
  if_neg lowers

def examine (walk : Walk q n) (v : Fin n) : Walk q n :=
  if 0 < walk.current.costs.get v then ⟨walk.current.flip v, walk.effort.tick⟩
  else ⟨walk.current, walk.effort.tick⟩

theorem fst_visit (walk : Walk q n) (toggled : List (Fin n)) (v : Fin n) :
    (visit (walk, toggled) v).1 = walk.examine v := by
  unfold examine
  by_cases raises : 0 < walk.current.costs.get v
  · rw [visit_of_pos raises, if_pos raises]
  · rw [visit_of_not_pos raises, if_neg raises]

theorem fst_foldl_visit (order : List (Fin n)) (walk : Walk q n) (toggled : List (Fin n)) :
    (order.foldl visit (walk, toggled)).1 = order.foldl examine walk := by
  induction order generalizing walk toggled with
  | nil => rfl
  | cons v rest ih =>
      rw [List.foldl_cons, List.foldl_cons, ← fst_visit walk toggled v]
      exact ih _ _

theorem fst_sweep (walk : Walk q n) (order : List (Fin n)) :
    (walk.sweep order).1 = order.foldl examine walk :=
  fst_foldl_visit order walk []

/-- What commutes with every visit commutes with a sweep. -/
theorem sweep_of_visits {β : Type} [Coefficient β] {q' : Qubo β} (f : Walk q n → Walk q' n)
    (visits : ∀ walk toggled v,
      visit (f walk, toggled) v = (f (visit (walk, toggled) v).1, (visit (walk, toggled) v).2))
    (walk : Walk q n) (order : List (Fin n)) :
    (f walk).sweep order = (f (walk.sweep order).1, (walk.sweep order).2) := by
  let carried (state : Walk q n × List (Fin n)) : Walk q' n × List (Fin n) := (f state.1, state.2)
  change order.foldl visit (carried (walk, [])) = carried (order.foldl visit (walk, []))
  exact List.foldl_hom carried fun state v => visits state.1 state.2 v

section Unfolding

variable {redraws sweeps : Nat} {order swept : Vector (Fin n) n} {walk : Walk q n} {g g' : γ}

theorem climbFrom_of_undrawn (undrawn : shuffle redraws order g = none) :
    climbFrom redraws (sweeps + 1) order walk g = none :=
  Attempt.bind_of_none (Attempt.lift_of_none undrawn)

theorem climbFrom_of_past (drawn : shuffle redraws order g = some (swept, g'))
    (past : (walk.sweep swept.toList).1.effort.checked = .error ⟨.countOverflow, .zero⟩) :
    climbFrom redraws (sweeps + 1) order walk g = some (.error ⟨.countOverflow, .zero⟩, g') := by
  unfold climbFrom
  rw [Attempt.bind_of_ok (Attempt.lift_of_some drawn)]
  exact Attempt.bind_of_error (Attempt.liftExcept_of_error past g')

theorem climbFrom_of_still (drawn : shuffle redraws order g = some (swept, g'))
    (counted : (walk.sweep swept.toList).1.effort.checked = .ok ())
    (none_toggled : (walk.sweep swept.toList).2 = []) :
    climbFrom redraws (sweeps + 1) order walk g = some (.ok (walk.sweep swept.toList).1, g') := by
  unfold climbFrom
  rw [Attempt.bind_of_ok (Attempt.lift_of_some drawn)]
  refine (Attempt.bind_of_ok (Attempt.liftExcept_of_ok counted g')).trans ?_
  -- The bind has opened the sweep, so the list of toggles is that of its fold.
  have folded : (swept.toList.foldl visit (walk, [])).2 = [] := none_toggled
  simp only [folded]
  rfl

theorem climbFrom_of_toggled (drawn : shuffle redraws order g = some (swept, g'))
    (counted : (walk.sweep swept.toList).1.effort.checked = .ok ())
    (some_toggled : (walk.sweep swept.toList).2 ≠ []) :
    climbFrom redraws (sweeps + 1) order walk g =
      climbFrom redraws sweeps swept (walk.sweep swept.toList).1 g' := by
  rw [climbFrom, Attempt.bind_of_ok (Attempt.lift_of_some drawn)]
  refine (Attempt.bind_of_ok (Attempt.liftExcept_of_ok counted g')).trans ?_
  cases folded : (swept.toList.foldl visit (walk, [])).2 with
  | nil => exact absurd folded some_toggled
  | cons v others => rfl

/-- A local search ends well with a sweep that toggles nothing, or when what follows a sweep that
toggles something does. -/
theorem climbFrom_succ_eq_ok_iff {last : Walk q n} :
    climbFrom redraws (sweeps + 1) order walk g = some (.ok last, g') ↔
      ∃ swept g₁, shuffle redraws order g = some (swept, g₁) ∧
        (walk.sweep swept.toList).1.effort.checked = .ok () ∧
        (((walk.sweep swept.toList).2 = [] ∧ last = (walk.sweep swept.toList).1 ∧ g' = g₁) ∨
          ((walk.sweep swept.toList).2 ≠ [] ∧
            climbFrom redraws sweeps swept (walk.sweep swept.toList).1 g₁ =
              some (.ok last, g'))) := by
  constructor
  · intro ends
    have opened := ends
    rw [climbFrom] at opened
    obtain ⟨swept, g₁, drawn, rest⟩ := Attempt.bind_eq_ok_iff.mp opened
    have shuffled := Attempt.lift_eq_ok_iff.mp drawn
    obtain ⟨_, g₂, passes, _⟩ := Attempt.bind_eq_ok_iff.mp rest
    obtain ⟨counted, rfl⟩ := Attempt.liftExcept_eq_ok_iff.mp passes
    refine ⟨swept, g₁, shuffled, counted, ?_⟩
    by_cases none_toggled : (walk.sweep swept.toList).2 = []
    · rw [climbFrom_of_still shuffled counted none_toggled] at ends
      cases ends
      exact Or.inl ⟨none_toggled, rfl, rfl⟩
    · rw [climbFrom_of_toggled shuffled counted none_toggled] at ends
      exact Or.inr ⟨none_toggled, ends⟩
  · rintro ⟨swept, g₁, shuffled, counted, ⟨none_toggled, rfl, rfl⟩ | ⟨some_toggled, ends⟩⟩
    · exact climbFrom_of_still shuffled counted none_toggled
    · rw [climbFrom_of_toggled shuffled counted some_toggled]
      exact ends

end Unfolding

/-- A local search with the orders of its sweeps, from an order, a walk and a generator to the walk
and the generator at its end. -/
inductive Climbs (redraws : Nat) : Vector (Fin n) n → Walk q n → γ → List (Vector (Fin n) n) →
    Walk q n → γ → Prop
  | still {order swept : Vector (Fin n) n} {walk : Walk q n} {g g' : γ}
      (shuffled : shuffle redraws order g = some (swept, g'))
      (counted : (walk.sweep swept.toList).1.effort.checked = .ok ())
      (none_toggled : (walk.sweep swept.toList).2 = []) :
      Climbs redraws order walk g [swept] (walk.sweep swept.toList).1 g'
  | onward {order swept : Vector (Fin n) n} {walk last : Walk q n} {g g' g'' : γ}
      {orders : List (Vector (Fin n) n)}
      (shuffled : shuffle redraws order g = some (swept, g'))
      (counted : (walk.sweep swept.toList).1.effort.checked = .ok ())
      (some_toggled : (walk.sweep swept.toList).2 ≠ [])
      (rest : Climbs redraws swept (walk.sweep swept.toList).1 g' orders last g'') :
      Climbs redraws order walk g (swept :: orders) last g''

namespace Climbs

variable {redraws : Nat} {order : Vector (Fin n) n} {walk last : Walk q n} {g g' : γ}
  {orders : List (Vector (Fin n) n)}

theorem unique (climbs : Climbs redraws order walk g orders last g')
    {others : List (Vector (Fin n) n)} {last' : Walk q n} {g'' : γ}
    (again : Climbs redraws order walk g others last' g'') :
    orders = others ∧ last = last' ∧ g' = g'' := by
  induction climbs generalizing others with
  | still shuffled counted none_toggled =>
      cases again with
      | still shuffled' counted' none_toggled' =>
          rw [shuffled] at shuffled'
          cases shuffled'
          exact ⟨rfl, rfl, rfl⟩
      | onward shuffled' counted' some_toggled' rest' =>
          rw [shuffled] at shuffled'
          cases shuffled'
          exact absurd none_toggled some_toggled'
  | onward shuffled counted some_toggled rest ih =>
      cases again with
      | still shuffled' counted' none_toggled' =>
          rw [shuffled] at shuffled'
          cases shuffled'
          exact absurd none_toggled' some_toggled
      | onward shuffled' counted' some_toggled' rest' =>
          rw [shuffled] at shuffled'
          cases shuffled'
          obtain ⟨sameOrders, sameLast, sameGenerator⟩ := ih rest'
          exact ⟨congrArg _ sameOrders, sameLast, sameGenerator⟩

def examined (orders : List (Vector (Fin n) n)) : List (Fin n) := orders.flatMap Vector.toList

theorem last_eq (climbs : Climbs redraws order walk g orders last g') :
    last = (examined orders).foldl examine walk := by
  unfold examined
  induction climbs with
  | still shuffled counted none_toggled =>
      rw [fst_sweep, List.flatMap_singleton]
  | onward shuffled counted some_toggled rest ih =>
      rw [ih, fst_sweep, List.flatMap_cons, List.foldl_append]

end Climbs

theorem climbs_of_climbFrom {redraws sweeps : Nat} {order : Vector (Fin n) n} {walk last : Walk q n}
    {g g' : γ} (ends : climbFrom redraws sweeps order walk g = some (.ok last, g')) :
    ∃ orders, Climbs redraws order walk g orders last g' := by
  induction sweeps generalizing order walk g with
  | zero => cases ends
  | succ sweeps ih =>
      obtain ⟨swept, g₁, shuffled, counted, ⟨none_toggled, rfl, rfl⟩ | ⟨some_toggled, ends⟩⟩ :=
        climbFrom_succ_eq_ok_iff.mp ends
      · exact ⟨[swept], .still shuffled counted none_toggled⟩
      · obtain ⟨orders, rest⟩ := ih ends
        exact ⟨swept :: orders, .onward shuffled counted some_toggled rest⟩

/-- The assignments that a local search goes through: the one after each variable looked at, and the
one before all of them. -/
def Visits (limits : Limits) (start : Walk q n) (g : γ) (y : Assignment n) : Prop :=
  ∃ orders last g', Climbs limits.redraws (Vector.ofFn id) start g orders last g' ∧
    ∃ count, y = (((Climbs.examined orders).take count).foldl examine start).current.bits

theorem visits_last {limits : Limits} {start last : Walk q n} {g g' : γ}
    (ends : climb limits start g = some (.ok last, g')) :
    Visits limits start g last.current.bits := by
  obtain ⟨orders, climbs⟩ := climbs_of_climbFrom ends
  refine ⟨orders, last, g', climbs, (Climbs.examined orders).length, ?_⟩
  rw [List.take_length, ← climbs.last_eq]

end BinaryQuadratic.Walk
