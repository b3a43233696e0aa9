import BinaryQuadratic.Proofs.Objective
import BinaryQuadratic.Tracked

set_option autoImplicit false

/-! A tracked assignment carries the energy and the costs that an evaluation from the matrix alone
would give. The toggle keeps this, so any run of toggles does. -/

namespace BinaryQuadratic

variable {n : Nat}

theorem Assignment.get_foldl_toggle (moves : List (Fin n)) (x : Assignment n) (v : Fin n) :
    (moves.foldl toggle x).get v = (x.get v ^^ decide (moves.count v % 2 = 1)) := by
  induction moves generalizing x with
  | nil => simp
  | cons move rest ih =>
      rw [List.foldl_cons, ih, get_toggle, List.count_cons]
      by_cases same : v = move
      · subst same
        rcases Nat.mod_two_eq_zero_or_one (rest.count v) with even | odd
        · have turned : (rest.count v + 1) % 2 = 1 := by omega
          simp [even, turned]
        · have turned : (rest.count v + 1) % 2 = 0 := by omega
          simp [odd, turned]
      · have absent : (move == v) = false := beq_false_of_ne fun equal => same equal.symm
        simp [same, absent]

namespace Qubo

variable {q : Qubo ℚ} {fits : n ≤ q.size}

theorem flipCost_toggle (x : Assignment n) (v k : Fin n) :
    q.flipCost fits (x.toggle v) (x.toggle v).support k =
      if k = v then -q.flipCost fits x x.support v
      else q.flipCost fits x x.support k +
        Coefficient.signed (x.get k != !x.get v) (q.coupling fits v k) := by
  rw [flipCost_eq_marginal, flipCost_eq_marginal, flipCost_eq_marginal, marginal_toggle,
    Assignment.get_toggle]
  by_cases same : k = v
  · subst same
    cases x.get k <;> simp [Coefficient.signed_eq]
  · -- The direction of the toggle and the value of `k` give four signs, all of them products.
    simp only [if_neg same]
    cases x.get k <;> cases x.get v <;> simp [Coefficient.signed_eq] <;> ring

theorem get_flipCostsWithin (x : Assignment n) (i : Fin n) :
    (q.flipCostsWithin fits x).get i = q.flipCost fits x x.support i :=
  Vector.get_ofFn _ i

end Qubo

namespace Tracked

section Exact

variable {q : Qubo ℚ}

/-- The tracked numbers are those of the tracked assignment. -/
structure Exact (s : Tracked q n) : Prop where
  energy_eq : s.energy = q.energyWithin s.fits s.bits
  costs_eq : s.costs = q.flipCostsWithin s.fits s.bits

namespace Exact

variable {s : Tracked q n}

theorem ofAssignmentWithin (fits : n ≤ q.size) (x : Assignment n) :
    (Tracked.ofAssignmentWithin q fits x).Exact :=
  ⟨rfl, rfl⟩

theorem get_costs (exact : s.Exact) (v : Fin n) :
    s.costs.get v = q.flipCost s.fits s.bits s.bits.support v := by
  rw [exact.costs_eq, Qubo.get_flipCostsWithin]

theorem flip (exact : s.Exact) (v : Fin n) : (s.flip v).Exact := by
  constructor
  · change s.energy + s.costs.get v = q.energyWithin s.fits (s.bits.toggle v)
    rw [Qubo.energyWithin_toggle, exact.energy_eq, exact.get_costs]
  · unfold Tracked.flip Qubo.flipCostsWithin
    apply congrArg Vector.ofFn
    funext k
    rw [exact.get_costs, exact.get_costs]
    exact (Qubo.flipCost_toggle s.bits v k).symm

theorem flips (exact : s.Exact) (moves : List (Fin n)) : (moves.foldl Tracked.flip s).Exact := by
  induction moves generalizing s with
  | nil => exact exact
  | cons move rest ih => exact ih (exact.flip move)

theorem energy_flip (exact : s.Exact) (v : Fin n) :
    (s.flip v).energy = q.energyWithin s.fits (s.bits.toggle v) :=
  (exact.flip v).energy_eq

end Exact

end Exact

section Run

variable {α : Type} [Coefficient α] {q : Qubo α}

/-- Toggles in turn of variables given by any indices, with the energies that they return. -/
def flipAll (s : Tracked q n) : List Nat → Except Fault (List α × Tracked q n)
  | [] => .ok ([], s)
  | v :: rest => do
    let s ← s.flipAt v
    let (returned, last) ← s.flipAll rest
    return (s.energy :: returned, last)

def returned (s : Tracked q n) : List (Fin n) → List α
  | [] => []
  | v :: rest => (s.flip v).energy :: (s.flip v).returned rest

theorem flipAll_map_val (s : Tracked q n) (moves : List (Fin n)) :
    s.flipAll (moves.map Fin.val) = .ok (s.returned moves, moves.foldl flip s) := by
  induction moves generalizing s with
  | nil => rfl
  | cons move rest ih =>
      rw [List.map_cons, flipAll, flipAt_val]
      simp only [bind, Except.bind, ih]
      rfl

theorem length_returned (s : Tracked q n) (moves : List (Fin n)) :
    (s.returned moves).length = moves.length := by
  induction moves generalizing s with
  | nil => rfl
  | cons move rest ih => rw [returned, List.length_cons, ih, List.length_cons]

theorem returned_take (s : Tracked q n) (moves : List (Fin n)) (k : Nat) :
    s.returned (moves.take k) = (s.returned moves).take k := by
  induction moves generalizing s k with
  | nil => simp [returned]
  | cons move rest ih =>
      cases k with
      | zero => rfl
      | succ k => rw [List.take_succ_cons, returned, ih, returned, List.take_succ_cons]

theorem getElem?_returned (s : Tracked q n) (moves : List (Fin n)) (k : Nat)
    (inside : k < moves.length) :
    (s.returned moves)[k]? = some ((moves.take (k + 1)).foldl flip s).energy := by
  induction moves generalizing s k with
  | nil => cases inside
  | cons move rest ih =>
      cases k with
      | zero => rfl
      | succ k => exact ih (s.flip move) k (Nat.lt_of_succ_lt_succ inside)

theorem bits_foldl_flip (s : Tracked q n) (moves : List (Fin n)) :
    (moves.foldl flip s).bits = moves.foldl Assignment.toggle s.bits := by
  induction moves generalizing s with
  | nil => rfl
  | cons move rest ih => exact ih (s.flip move)

end Run

/-- Any toggles of variables in range, started on any assignment that fits the matrix, go through.
They end on the assignment in which a variable is turned round once for each of its toggles, with
the energy and the costs that an evaluation of that assignment gives; every toggle returns the
energy tracked after it. -/
theorem flipAll_ofAssignment (q : Qubo ℚ) (x : Assignment n) (fits : n ≤ q.size)
    (moves : List (Fin n)) :
    ∃ start returned last,
      ofAssignment q x = .ok start ∧
      start.flipAll (moves.map Fin.val) = .ok (returned, last) ∧
      q.energy last.bits = .ok last.energy ∧
      q.flipCosts last.bits = .ok last.costs ∧
      (∀ v, last.bits.get v = (x.get v ^^ decide (moves.count v % 2 = 1))) ∧
      returned.length = moves.length ∧
      ∀ k < moves.length, ∃ now,
        start.flipAll ((moves.take (k + 1)).map Fin.val) = .ok (returned.take (k + 1), now) ∧
        returned[k]? = some now.energy := by
  let start := ofAssignmentWithin q fits x
  have exact : (moves.foldl flip start).Exact := (Exact.ofAssignmentWithin fits x).flips moves
  refine ⟨start, start.returned moves, moves.foldl flip start, ofAssignment_of_fits fits x,
    start.flipAll_map_val moves, ?_, ?_, ?_, start.length_returned moves, ?_⟩
  · rw [Qubo.energy_of_fits fits, exact.energy_eq]
  · rw [Qubo.flipCosts_of_fits fits, exact.costs_eq]
  · intro v
    rw [bits_foldl_flip]
    exact Assignment.get_foldl_toggle moves x v
  · intro k inside
    refine ⟨(moves.take (k + 1)).foldl flip start, ?_, start.getElem?_returned moves k inside⟩
    rw [flipAll_map_val, returned_take]

theorem flipAll_ofAssignment_leading_block :
    let q : Qubo ℚ := ⟨3, #v[1, -2, 7, 5, 1 / 2, 7, 7, 7, 7]⟩
    let returned : List ℚ := [-1 / 2, 1 / 2, 0, 1, 0]
    2 ≤ q.size ∧ ∃ start last,
      ofAssignment q #v[true, false] = .ok start ∧
      start.flipAll [1, 0, 1, 0, 0] = .ok (returned, last) ∧
      (last.bits, last.energy, last.costs) = (#v[false, false], 0, #v[1, 1 / 2]) ∧
      q.energy last.bits = .ok last.energy ∧
      q.flipCosts last.bits = .ok last.costs ∧
      (∀ v, last.bits.get v = ((#v[true, false] : Assignment 2).get v ^^
        decide (([1, 0, 1, 0, 0] : List (Fin 2)).count v % 2 = 1))) ∧
      returned.length = 5 ∧
      ∀ k < 5, ∃ now,
        start.flipAll ((([1, 0, 1, 0, 0] : List (Fin 2)).take (k + 1)).map Fin.val) =
          .ok (returned.take (k + 1), now) ∧
        returned[k]? = some now.energy := by
  intro q returned
  have reported : ((ofAssignment q #v[true, false] >>= fun start =>
      start.flipAll [1, 0, 1, 0, 0]).map fun (returned, last) =>
        (returned, last.bits, last.energy, last.costs)) =
      .ok (returned, #v[false, false], 0, #v[1, 1 / 2]) := by
    decide +kernel
  obtain ⟨start, energies, last, starts, flips, laws⟩ :=
    flipAll_ofAssignment q #v[true, false] (by decide) [1, 0, 1, 0, 0]
  have flips' : start.flipAll [1, 0, 1, 0, 0] = .ok (energies, last) := flips
  simp only [starts, bind, Except.bind, flips', Except.map, Except.ok.injEq,
    Prod.mk.injEq] at reported
  obtain ⟨rfl, bits_eq, energy_eq, costs_eq⟩ := reported
  refine ⟨by decide, start, last, starts, flips', ?_, laws⟩
  rw [bits_eq, energy_eq, costs_eq]

end Tracked

end BinaryQuadratic
