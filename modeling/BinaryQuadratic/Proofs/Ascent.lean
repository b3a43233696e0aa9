import BinaryQuadratic.Proofs.Climb
import BinaryQuadratic.Proofs.Tracking

set_option autoImplicit false

/-! Local search in exact arithmetic never goes down, because a tracked cost is the true change in
energy and only a positive one is taken. -/

namespace BinaryQuadratic.Walk

variable {γ : Type} [Generator γ] {q : Qubo ℚ} {n : Nat} {walk start last : Walk q n} {g g' : γ}

theorem exact_examine (exact : walk.current.Exact) (v : Fin n) :
    (walk.examine v).current.Exact := by
  unfold examine
  by_cases raises : 0 < walk.current.costs.get v
  · rw [if_pos raises]
    exact exact.flip v
  · rw [if_neg raises]
    exact exact

theorem energy_le_examine (walk : Walk q n) (v : Fin n) :
    walk.current.energy ≤ (walk.examine v).current.energy := by
  unfold examine
  by_cases raises : 0 < walk.current.costs.get v
  · rw [if_pos raises]
    exact le_add_of_nonneg_right (le_of_lt raises)
  · rw [if_neg raises]

theorem exact_foldl_examine (exact : walk.current.Exact) (seen : List (Fin n)) :
    (seen.foldl examine walk).current.Exact := by
  induction seen generalizing walk with
  | nil => exact exact
  | cons v rest ih => exact ih (exact_examine exact v)

theorem energy_le_foldl_examine (walk : Walk q n) (seen : List (Fin n)) :
    walk.current.energy ≤ (seen.foldl examine walk).current.energy := by
  induction seen generalizing walk with
  | nil => exact le_rfl
  | cons v rest ih => exact (energy_le_examine walk v).trans (ih (walk.examine v))

theorem exact_of_climb {limits : Limits} (exact : start.current.Exact)
    (ends : climb limits start g = some (.ok last, g')) : last.current.Exact := by
  obtain ⟨orders, climbs⟩ := climbs_of_climbFrom ends
  rw [climbs.last_eq]
  exact exact_foldl_examine exact _

theorem energy_le_of_climb {limits : Limits}
    (ends : climb limits start g = some (.ok last, g')) :
    start.current.energy ≤ last.current.energy := by
  obtain ⟨orders, climbs⟩ := climbs_of_climbFrom ends
  rw [climbs.last_eq]
  exact energy_le_foldl_examine start _

/-- Nothing that a local search goes through is better than its end. -/
theorem Visits.energy_le {limits : Limits} {fits : n ≤ q.size} {y : Assignment n}
    (visits : Visits limits start g y) (exact : start.current.Exact)
    (ends : climb limits start g = some (.ok last, g')) :
    q.energyWithin fits y ≤ last.current.energy := by
  obtain ⟨orders, climbs⟩ := climbs_of_climbFrom ends
  obtain ⟨others, end', generator, climbs', count, rfl⟩ := visits
  obtain ⟨rfl, rfl, rfl⟩ := climbs.unique climbs'
  let seen := Climbs.examined orders
  let midway := (seen.take count).foldl examine start
  have split : last = (seen.drop count).foldl examine midway := by
    rw [climbs.last_eq, ← List.foldl_append, List.take_append_drop]
  calc q.energyWithin fits midway.current.bits
      = midway.current.energy := (exact_foldl_examine exact _).energy_eq.symm
    _ ≤ last.current.energy := by
        rw [split]
        exact energy_le_foldl_examine midway _

end BinaryQuadratic.Walk
