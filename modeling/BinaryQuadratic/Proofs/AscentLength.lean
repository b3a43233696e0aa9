import BinaryQuadratic.Proofs.Ascent
import BinaryQuadratic.Proofs.Sweeps
import BinaryQuadratic.Random.Scripted

set_option autoImplicit false

/-! How long a local search in exact arithmetic can last. Every toggle raises the energy, so no
assignment comes up twice, and there are only `2 ^ n` of them. -/

namespace BinaryQuadratic

variable {γ : Type} [Generator γ] {q : Qubo ℚ} {n : Nat}

theorem Assignment.length_le_of_nodup {assignments : List (Assignment n)}
    (distinct : assignments.Nodup) : assignments.length ≤ 2 ^ n := by
  have separates : Function.Injective (Vector.get : Assignment n → Fin n → Bool) :=
    fun x y same => Assignment.ext_get (congrFun same)
  have bound := (distinct.map separates).length_le_card
  rw [List.length_map] at bound
  calc assignments.length ≤ Fintype.card (Fin n → Bool) := bound
    _ = 2 ^ n := by simp

namespace Tracked

/-- The states that toggles in turn go through, with the first and the last. -/
def trail (s : Tracked q n) (moves : List (Fin n)) : List (Tracked q n) := moves.scanl flip s

theorem trail_cons (s : Tracked q n) (v : Fin n) (moves : List (Fin n)) :
    s.trail (v :: moves) = s :: (s.flip v).trail moves :=
  List.scanl_cons

theorem length_trail (s : Tracked q n) (moves : List (Fin n)) :
    (s.trail moves).length = moves.length + 1 :=
  List.length_scanl

theorem exists_trail_eq_cons (s : Tracked q n) (moves : List (Fin n)) :
    ∃ rest, s.trail moves = s :: rest := by
  cases moves with
  | nil => exact ⟨[], List.scanl_nil⟩
  | cons v moves => exact ⟨_, s.trail_cons v moves⟩

variable {s : Tracked q n}

theorem Exact.of_mem_trail (exact : s.Exact) {moves : List (Fin n)} {later : Tracked q n}
    (member : later ∈ s.trail moves) : later.Exact := by
  induction moves generalizing s with
  | nil =>
      rw [List.mem_singleton.mp member]
      exact exact
  | cons v rest ih =>
      rw [trail_cons, List.mem_cons] at member
      rcases member with same | member
      · rw [same]
        exact exact
      · exact ih (exact.flip v) member

theorem energy_lt_flip {v : Fin n} (raises : 0 < s.costs.get v) : s.energy < (s.flip v).energy :=
  lt_add_of_pos_right s.energy raises

/-- The energy goes up along the toggles of a local search. -/
theorem pairwise_trail_toggles (s : Tracked q n) (seen : List (Fin n)) :
    (s.trail (s.toggles seen)).Pairwise (fun earlier later => earlier.energy < later.energy) := by
  induction seen generalizing s with
  | nil => exact List.pairwise_singleton _ s
  | cons v rest ih =>
      by_cases raises : 0 < s.costs.get v
      · rw [toggles_cons_of_pos raises, trail_cons, List.pairwise_cons]
        refine ⟨?_, ih (s.flip v)⟩
        have ascending := ih (s.flip v)
        obtain ⟨others, shape⟩ := (s.flip v).exists_trail_eq_cons ((s.flip v).toggles rest)
        rw [shape] at ascending ⊢
        intro later member
        rcases List.mem_cons.mp member with same | member
        · rw [same]
          exact energy_lt_flip raises
        · exact (energy_lt_flip raises).trans ((List.pairwise_cons.mp ascending).1 later member)
      · rw [toggles_cons_of_not_pos raises]
        exact ih s

theorem nodup_trail_toggles (exact : s.Exact) (seen : List (Fin n)) :
    ((s.trail (s.toggles seen)).map fun state => state.bits).Nodup := by
  refine List.pairwise_map.mpr ((s.pairwise_trail_toggles seen).imp_of_mem ?_)
  intro earlier later before after raised same
  have equal : earlier.energy = later.energy := by
    rw [(exact.of_mem_trail before).energy_eq, (exact.of_mem_trail after).energy_eq, same]
  exact raised.ne equal

theorem length_toggles_lt (exact : s.Exact) (seen : List (Fin n)) :
    (s.toggles seen).length < 2 ^ n := by
  have few := Assignment.length_le_of_nodup (nodup_trail_toggles exact seen)
  rw [List.length_map, length_trail] at few
  exact few

/-- The last state of the trail is no better than the first only if it is the first. -/
theorem energy_eq_iff_toggles_eq_nil (s : Tracked q n) (seen : List (Fin n)) :
    ((s.toggles seen).foldl flip s).energy = s.energy ↔ s.toggles seen = [] := by
  constructor
  · intro same
    cases made : s.toggles seen with
    | nil => rfl
    | cons v rest =>
        have ascending := s.pairwise_trail_toggles seen
        have final : ((s.toggles seen).foldl flip s) ∈ (s.flip v).trail rest := by
          rw [made]
          exact List.mem_of_getLast? List.getLast?_scanl
        rw [made, trail_cons, List.pairwise_cons] at ascending
        exact absurd same (ascending.1 _ final).ne'
  · intro none_made
    rw [none_made]
    rfl

end Tracked

namespace Walk

variable {start last : Walk q n} {redraws : Nat} {order order' : Vector (Fin n) n} {walk' : Walk q n}
  {g g' : γ} {orders : List (Vector (Fin n) n)}

theorem Sweeps.length_lt (sweeps : Sweeps redraws order start g orders order' walk' g')
    (exact : start.current.Exact) : orders.length < 2 ^ n :=
  sweeps.length_le_toggles.trans_lt (Tracked.length_toggles_lt exact _)

theorem Climbs.length_le (climbs : Climbs redraws order start g orders last g')
    (exact : start.current.Exact) : orders.length ≤ 2 ^ n := by
  obtain ⟨before, order', walk', g₁, swept, rfl, sweeps, _⟩ := climbs.exists_sweeps
  rw [List.length_append]
  exact sweeps.length_lt exact

theorem exists_climb_eq_some {limits : Limits} (exact : start.current.Exact)
    (enough : 2 ^ n ≤ limits.sweeps)
    (draws : ∀ {orders order walk g'},
      Sweeps limits.redraws (Vector.ofFn id) start g orders order walk g' →
      ∃ drawn, shuffle limits.redraws order g' = some drawn) :
    ∃ outcome g', climb limits start g = some (outcome, g') := by
  obtain ⟨orders, order', walk', g', sweeps, ends⟩ :=
    climbFrom_cases limits.redraws limits.sweeps (Vector.ofFn id) start g
  rcases ends with ⟨_, many | undrawn⟩ | ⟨swept, g'', _, ends | ⟨ends, _⟩⟩
  · have few := sweeps.length_lt exact
    omega
  · obtain ⟨drawn, same⟩ := draws sweeps
    rw [undrawn] at same
    cases same
  · exact ⟨_, g'', ends⟩
  · exact ⟨_, g'', ends⟩

theorem breakdown_of_climb {limits : Limits} {breakdown : Breakdown} (exact : start.current.Exact)
    (ends : climb limits start g = some (.error breakdown, g')) :
    breakdown = ⟨.countOverflow, .zero⟩ ∧ greatestWord < start.effort.total + n * 2 ^ n := by
  obtain ⟨orders, order', walk', g₁, sweeps, others⟩ :=
    climbFrom_cases limits.redraws limits.sweeps (Vector.ofFn id) start g
  change climbFrom _ _ _ _ _ = _ at ends
  rw [ends] at others
  rcases others with ⟨absent, _⟩ | ⟨swept, g'', _, done | ⟨broken, past⟩⟩
  · cases absent
  · cases done
  · cases broken
    refine ⟨rfl, ?_⟩
    have few : orders.length + 1 ≤ 2 ^ n := sweeps.length_lt exact
    have sum : n * orders.length + n ≤ n * 2 ^ n := by
      rw [← Nat.mul_succ]
      exact Nat.mul_le_mul_left n few
    rw [fst_sweep, total_foldl_examine, sweeps.walk_eq, total_foldl_examine,
      Sweeps.length_examined, Vector.length_toList] at past
    omega

/-- A local search from any state that toggles can lead to returns within `2 ^ n` sweeps when its
shuffles do, and only a count past the greatest word can break it down. Whatever variables it looks
at, each toggle raises the energy and no assignment comes up twice, so it makes fewer than `2 ^ n`
toggles. At its end it has made at most `2 ^ n` sweeps; the energy it reports is that of its
assignment, and is greater than the first one unless nothing was toggled. -/
theorem climb_terminates (limits : Limits) (q : Qubo ℚ) (fits : n ≤ q.size) (x : Assignment n)
    (moves : List (Fin n)) (effort : Effort) (g : γ) :
    let start : Walk q n :=
      ⟨moves.foldl Tracked.flip (Tracked.ofAssignmentWithin q fits x), effort⟩
    (2 ^ n ≤ limits.sweeps →
      (∀ orders order walk g',
        Sweeps limits.redraws (Vector.ofFn id) start g orders order walk g' →
        ∃ drawn, shuffle limits.redraws order g' = some drawn) →
      ∃ outcome g', climb limits start g = some (outcome, g')) ∧
    (∀ breakdown g', climb limits start g = some (.error breakdown, g') →
      breakdown = ⟨.countOverflow, .zero⟩ ∧ greatestWord < effort.total + n * 2 ^ n) ∧
    (∀ seen,
      let made := start.current.toggles seen
      (seen.foldl examine start).current = made.foldl Tracked.flip start.current ∧
      (∀ state ∈ start.current.trail made, q.energy state.bits = .ok state.energy) ∧
      (start.current.trail made).Pairwise (fun earlier later => earlier.energy < later.energy) ∧
      ((start.current.trail made).map fun state => state.bits).Nodup ∧
      made.length ≤ 2 ^ n - 1) ∧
    ∀ last g', climb limits start g = some (.ok last, g') →
      ∃ orders, Climbs limits.redraws (Vector.ofFn id) start g orders last g' ∧
        orders.length ≤ 2 ^ n ∧
        last = (Climbs.examined orders).foldl examine start ∧
        q.energy last.current.bits = .ok last.current.energy ∧
        start.current.energy ≤ last.current.energy ∧
        (last.current.energy = start.current.energy ↔
          start.current.toggles (Climbs.examined orders) = []) := by
  intro start
  have exact : start.current.Exact := (Tracked.Exact.ofAssignmentWithin fits x).flips moves
  refine ⟨fun enough draws => exists_climb_eq_some exact enough (draws _ _ _ _),
    fun breakdown g' ends => breakdown_of_climb exact ends, ?_, ?_⟩
  · intro seen
    have few := Tracked.length_toggles_lt exact seen
    refine ⟨current_foldl_examine start seen, ?_, Tracked.pairwise_trail_toggles _ seen,
      Tracked.nodup_trail_toggles exact seen, Nat.le_sub_one_of_lt few⟩
    intro state member
    rw [Qubo.energy_of_fits state.fits, (exact.of_mem_trail member).energy_eq]
  · intro last g' ends
    obtain ⟨orders, climbs⟩ := climbs_of_climbFrom ends
    refine ⟨orders, climbs, climbs.length_le exact, climbs.last_eq, ?_, energy_le_of_climb ends, ?_⟩
    · rw [Qubo.energy_of_fits last.current.fits, (exact_of_climb exact ends).energy_eq]
    · rw [climbs.last_eq, current_foldl_examine]
      exact Tracked.energy_eq_iff_toggles_eq_nil _ _

theorem climb_terminates_after_four_sweeps :
    let q : Qubo ℚ := ⟨4, #v[1, 2, -1, 9, 7, -1 / 2, 3, 9, 7, 7, -1 / 3, 9, 7, 7, 7, 7]⟩
    let fits : 3 ≤ q.size := by decide
    let start : Walk q 3 :=
      ⟨([1, 0, 1] : List (Fin 3)).foldl Tracked.flip
        (Tracked.ofAssignmentWithin q fits #v[true, false, false]), ⟨5⟩⟩
    let g : Scripted :=
      ⟨#[5, 0x9e3779b97f4a7c15, 0xdeadbeefcafebabe, 0x123456789abcdef0], by decide, 0⟩
    ∃ last g' orders, climb (Limits.uniform 8) start g = some (.ok last, g') ∧
      last.current.bits = #v[true, true, true] ∧ last.effort.total = 5 + 3 * 4 ∧
      Climbs 8 (Vector.ofFn id) start g orders last g' ∧ orders.length ≤ 8 ∧
      last = (Climbs.examined orders).foldl examine start ∧
      (start.current.toggles (Climbs.examined orders)).length ≤ 7 ∧
      ((start.current.trail (start.current.toggles (Climbs.examined orders))).map
        fun state => state.bits).Nodup := by
  intro q fits start g
  have reported : ((climb (Limits.uniform 8) start g).map fun result =>
      result.1.toOption.map fun last => (last.current.bits, last.effort.total)) =
        some (some (#v[true, true, true], 17)) := by
    decide +kernel
  obtain ⟨last, g', ends, values⟩ := Attempt.exists_ok_of_report reported
  obtain ⟨_, _, rising, returned⟩ :=
    climb_terminates (Limits.uniform 8) q fits #v[true, false, false] [1, 0, 1] ⟨5⟩ g
  obtain ⟨orders, climbs, few, last_eq, _⟩ := returned last g' ends
  obtain ⟨_, _, _, distinct, short⟩ := rising (Climbs.examined orders)
  exact ⟨last, g', orders, ends, congrArg Prod.fst values, congrArg Prod.snd values, climbs, few,
    last_eq, short, distinct⟩

end Walk

end BinaryQuadratic
