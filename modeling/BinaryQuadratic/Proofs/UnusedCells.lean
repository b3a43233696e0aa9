import BinaryQuadratic.Proofs.Indexed.Solver
import BinaryQuadratic.Proofs.Tracking
import BinaryQuadratic.Proofs.Transport

set_option autoImplicit false

/-! Cells that take no part. Nothing that is computed for an assignment of `n` variables depends on the
cells below the diagonal or outside the leading block of `n` variables: energies, toggles, local
searches, subproblems, tabu searches and whole solutions are the same whatever stands there, and so
they are when every row and cell is looked up in the stored data. -/

namespace BinaryQuadratic

open Coefficient (Embedding)

variable {α γ : Type} [Coefficient α] [Generator γ] {n : Nat}

/-- Everything that a tracked assignment shows. -/
def Tracked.shown {q : Qubo α} (s : Tracked q n) : Assignment n × α × Vector α n :=
  (s.bits, s.energy, s.costs)

/-- Everything that a local search shows at its end. -/
def Walk.shown {q : Qubo α} (walk : Walk q n) : (Assignment n × α × Vector α n) × Effort :=
  (walk.current.shown, walk.effort)

section Refl

variable {q q' : Qubo α}

theorem Searched.map_refl (found : Searched α n) : found.map (Embedding.refl α) = found := by
  rcases found with ⟨⟨energy, flips, ceiling, reached, trace, iterations, moves⟩, bits, effort⟩
  change (⟨⟨energy, flips, ceiling, reached, trace.map id, iterations, moves⟩, bits, effort⟩ :
    Searched α n) = _
  rw [List.map_id]

theorem TabuSearch.map_refl (p : TabuSearch α) : p.map (Embedding.refl α) = p := by
  rcases p with ⟨tenure, target, extensions⟩
  cases target with
  | none => rfl
  | some t => rfl

theorem Parameters.map_refl (p : Parameters α) : p.map (Embedding.refl α) = p := by
  have target_eq : p.target.map (Embedding.refl α) = p.target := Option.map_id_apply
  unfold map
  rw [target_eq]

theorem Subproblem.map_refl (sub : Subproblem α n) : sub.map (Embedding.refl α) = sub := by
  rcases sub with ⟨indices, ⟨size, cells⟩, solution⟩
  change (⟨indices, ⟨size, cells.map id⟩, solution⟩ : Subproblem α n) = _
  rw [Vector.map_id]

theorem solve_of_same_numbers {cells cells' : Vector α (n * n)}
    (c : Qubo.Corresponds (Embedding.refl α) ⟨n, cells⟩ ⟨n, cells'⟩ n) (limits : Limits)
    (p : Parameters α) :
    (solve limits p ⟨n, cells'⟩ : ExceptT SolveError (Draw γ) (Solution α n)) =
      solve limits p ⟨n, cells⟩ := by
  have corresponding := solve_transport (γ := γ) c limits p
  rw [p.map_refl] at corresponding
  rw [corresponding]
  exact id_map _

variable (c : q.Corresponds (Embedding.refl α) q' n)

theorem Tracked.shown_transport (s : Tracked q n) : (s.transport c).shown = s.shown := by
  change (s.bits, s.energy, s.costs.map id) = _
  rw [Vector.map_id]
  rfl

theorem Walk.shown_transport (walk : Walk q n) : (walk.transport c).shown = walk.shown := by
  unfold shown
  rw [← walk.current.shown_transport c]
  rfl

theorem Tracked.flipAll_transport (s : Tracked q n) (moves : List Nat) :
    (s.transport c).flipAll moves =
      (s.flipAll moves).map fun last => (last.1, last.2.transport c) := by
  induction moves generalizing s with
  | nil => rfl
  | cons v rest ih =>
      unfold flipAll flipAt
      by_cases inside : v < n
      · simp only [dif_pos inside, bind, Except.bind, s.flip_transport c, ih]
        cases (s.flip ⟨v, inside⟩).flipAll rest with
        | error fault => rfl
        | ok last => rfl
      · simp only [dif_neg inside, bind, Except.bind]
        rfl

include c

theorem reduce_of_same_numbers (indices : List Nat) (x : Assignment n) :
    reduce indices q' x = reduce indices q x := by
  rw [reduce_of_corresponds c]
  cases reduce indices q x with
  | error fault => rfl
  | ok sub => exact congrArg Except.ok sub.map_refl

theorem TabuSearch.run_of_same_numbers (limits : Limits) (p : TabuSearch α) (x : Assignment n)
    (effort : Effort) (ceiling : Nat) :
    (p.run limits q' x effort ceiling : Attempt γ _) = p.run limits q x effort ceiling := by
  have corresponding := TabuSearch.run_transport (γ := γ) c limits p x effort ceiling
  rw [p.map_refl] at corresponding
  rw [corresponding]
  exact (map_congr Searched.map_refl).trans (id_map _)

end Refl

/-- Two matrices that agree on and above the diagonal of the leading block of `n` variables give the
same results for every assignment of `n` variables: energies, costs, sequences of toggles, local
searches, subproblems and tabu searches, with the generator after them, and faults included. Two
matrices of one size that agree on and above the diagonal have the same solutions. -/
theorem results_of_same_cells :
    (∀ (q q' : Qubo α) (fits : n ≤ q.size) (fits' : n ≤ q'.size),
      (∀ i j : Fin n, i ≤ j →
        q'.cell (i.castLE fits') (j.castLE fits') = q.cell (i.castLE fits) (j.castLE fits)) →
      ∀ x : Assignment n,
        q'.energy x = q.energy x ∧
        q'.flipCosts x = q.flipCosts x ∧
        (∀ moves : List Nat,
          ((Tracked.ofAssignment q' x >>= fun s => s.flipAll moves).map
            fun last => (last.1, last.2.shown)) =
          (Tracked.ofAssignment q x >>= fun s => s.flipAll moves).map
            fun last => (last.1, last.2.shown)) ∧
        (∀ limits effort,
          (Walk.shown <$> localOptimum limits q' x effort : Attempt γ _) =
            Walk.shown <$> localOptimum limits q x effort) ∧
        (∀ indices, reduce indices q' x = reduce indices q x) ∧
        ∀ limits p effort ceiling,
          (TabuSearch.run limits p q' x effort ceiling : Attempt γ _) =
            p.run limits q x effort ceiling) ∧
    ∀ cells cells' : Vector α (n * n),
      (∀ i j : Fin n, i ≤ j → (Qubo.mk n cells').cell i j = (Qubo.mk n cells).cell i j) →
      ∀ limits p,
        (solve limits p ⟨n, cells'⟩ : ExceptT SolveError (Draw γ) (Solution α n)) =
          solve limits p ⟨n, cells⟩ := by
  constructor
  · intro q q' fits fits' same x
    have c : q.Corresponds (Embedding.refl α) q' n := ⟨fits, fits', same⟩
    refine ⟨?_, ?_, ?_, ?_, ?_, ?_⟩
    · rw [Qubo.energy_of_fits fits, Qubo.energy_of_fits fits', c.energyWithin_eq]
      rfl
    · rw [Qubo.flipCosts_of_fits fits, Qubo.flipCosts_of_fits fits', c.flipCostsWithin_eq]
      exact congrArg Except.ok (Vector.map_id _)
    · intro moves
      rw [Tracked.ofAssignment_of_fits fits, Tracked.ofAssignment_of_fits fits',
        Tracked.ofAssignmentWithin_transport c x]
      change ((Tracked.transport c _).flipAll moves).map _ = (Tracked.flipAll _ moves).map _
      rw [Tracked.flipAll_transport]
      cases (Tracked.ofAssignmentWithin q c.fits x).flipAll moves with
      | error fault => rfl
      | ok last => exact congrArg (fun shown => Except.ok (last.1, shown)) (last.2.shown_transport c)
    · intro limits effort
      rw [localOptimum_transport c, ← comp_map]
      exact map_congr fun walk => walk.shown_transport c
    · exact fun indices => reduce_of_same_numbers c indices x
    · exact fun limits p => TabuSearch.run_of_same_numbers c limits p x
  · intro cells cells' same
    exact solve_of_same_numbers ⟨Nat.le_refl n, Nat.le_refl n, same⟩

theorem results_of_same_cells_beside_not_numbers :
    let one := Binary64.ofNat 1
    let two := Binary64.ofNat 2
    let none_such := Binary64.quietNaN true
    let beyond := Binary64.infinity false
    let cells : Vector Binary64 (3 * 3) := #v[-one, two, two, 0, -one, two, 0, 0, -one]
    let cells' : Vector Binary64 (3 * 3) :=
      #v[-one, two, two, none_such, -one, two, beyond, -0, -one]
    let q : Qubo Binary64 := ⟨3, cells⟩
    let q' : Qubo Binary64 :=
      ⟨4, #v[-one, two, two, beyond, none_such, -one, two, one, beyond, none_such, -one, none_such,
        one, one, two, beyond]⟩
    let fits : 3 ≤ q.size := by decide
    let fits' : 3 ≤ q'.size := by decide
    let limits := Limits.uniform 40
    let search : TabuSearch Binary64 := ⟨5, none, 900⟩
    let p : Parameters Binary64 := { findMax := true, repeats := 2, budget := 23, tenure := some 5 }
    let x := Assignment.allZero 3
    let g : Scripted :=
      ⟨#[5, 0x9e3779b97f4a7c15, 0xdeadbeefcafebabe, 0x123456789abcdef0], by decide, 0⟩
    (∀ i j : Fin 3, i ≤ j →
      q'.cell (i.castLE fits') (j.castLE fits') = q.cell (i.castLE fits) (j.castLE fits)) ∧
    (∀ i j : Fin 3, i ≤ j → (Qubo.mk 3 cells').cell i j = (Qubo.mk 3 cells).cell i j) ∧
    (∃ found g', search.run limits q' x Effort.zero 23 g = some (.ok found, g') ∧
      search.run limits q x Effort.zero 23 g = some (.ok found, g') ∧
      (found.outcome.bestTrace, found.bits) = ([0, Binary64.ofNat 3], #v[true, true, true])) ∧
    ∃ solution g', solve limits p ⟨3, cells'⟩ g = some (.ok solution, g') ∧
      solve limits p ⟨3, cells⟩ g = some (.ok solution, g') ∧
      (solution.energy, solution.passes) = (Binary64.ofNat 3, 2) := by
  intro one two none_such beyond cells cells' q q' fits fits' limits search p x g
  have same : ∀ i j : Fin 3, i ≤ j →
      q'.cell (i.castLE fits') (j.castLE fits') = q.cell (i.castLE fits) (j.castLE fits) := by
    decide +kernel
  have same' : ∀ i j : Fin 3, i ≤ j →
      (Qubo.mk 3 cells').cell i j = (Qubo.mk 3 cells).cell i j := by
    decide +kernel
  have searched : ((search.run limits q x Effort.zero 23 g).map fun result =>
      result.1.toOption.map fun found => (found.outcome.bestTrace, found.bits)) =
        some (some ([0, Binary64.ofNat 3], #v[true, true, true])) := by
    decide +kernel
  have solved : ((solve limits p ⟨3, cells⟩ g).map fun result =>
      result.1.toOption.map fun solution => (solution.energy, solution.passes)) =
        some (some (Binary64.ofNat 3, 2)) := by
    decide +kernel
  obtain ⟨found, g₁, runs, values⟩ := Attempt.exists_ok_of_report searched
  obtain ⟨solution, g₂, solves, values'⟩ := Attempt.exists_ok_of_report solved
  obtain ⟨alike, alike'⟩ := @results_of_same_cells Binary64 Scripted _ _ 3
  obtain ⟨_, _, _, _, _, runs_eq⟩ := alike q q' fits fits' same x
  refine ⟨same, same', ⟨found, g₁, ?_, runs, values⟩, ⟨solution, g₂, ?_, solves, values'⟩⟩
  · rw [runs_eq]
    exact runs
  · rw [alike' cells cells' same']
    exact solves

namespace Indexed

section Refl

variable {q q' : Qubo α} (c : q.Corresponds (Embedding.refl α) q' n)
  (counted : q.size ≤ greatestWord) (counted' : q'.size ≤ greatestWord)

theorem listed_transport (s : BinaryQuadratic.Tracked q n) : (s.transport c).listed = s.listed :=
  congrArg (fun costs => Tracked.mk s.bits.toList s.energy (Vector.toList costs))
    (Vector.map_id s.costs)

include c counted counted'

theorem foldlM_flip_of_same_numbers (s : BinaryQuadratic.Tracked q n) (moves : List Nat) :
    moves.foldlM (flip q') s.listed = moves.foldlM (flip q) s.listed := by
  induction moves generalizing s with
  | nil => rfl
  | cons v rest ih =>
      have transported := flip_listed counted' (s.transport c) v
      rw [listed_transport] at transported
      rw [List.foldlM_cons, List.foldlM_cons, transported, flip_listed counted]
      unfold Tracked.flipAt
      by_cases inside : v < n
      · rw [dif_pos inside, dif_pos inside, Tracked.flip_transport]
        change rest.foldlM (flip q') ((s.flip _).transport c).listed = _
        rw [listed_transport]
        exact ih _
      · rw [dif_neg inside, dif_neg inside]
        rfl

theorem track_of_same_numbers (x : Assignment n) : track q' x.toList = track q x.toList := by
  rw [track_eq_ok counted c.fits, track_eq_ok counted' c.fits',
    Tracked.ofAssignmentWithin_transport c x, listed_transport]

theorem climb_of_same_numbers (limits : Limits) (s : BinaryQuadratic.Tracked q n) (effort : Effort) :
    (Walk.climb limits q' ⟨s.listed, effort⟩ : Attempt γ _) =
      Walk.climb limits q ⟨s.listed, effort⟩ := by
  have climbs := Walk.climb_listed (γ := γ) counted limits ⟨s, effort⟩
  have climbs' := Walk.climb_listed (γ := γ) counted' limits (Walk.transport c ⟨s, effort⟩)
  have shown : ∀ walk : BinaryQuadratic.Walk q n, (walk.transport c).listed = walk.listed :=
    fun walk => congrArg (Indexed.Walk.mk · walk.effort) (listed_transport c walk.current)
  rw [Walk.climb_transport, ← comp_map, shown] at climbs'
  refine climbs'.trans (Eq.trans ?_ climbs.symm)
  exact map_congr shown

omit c counted counted' in
theorem solve_of_same_numbers {cells cells' : Vector α (n * n)} (counted : n ≤ greatestWord)
    (c : Qubo.Corresponds (Embedding.refl α) ⟨n, cells⟩ ⟨n, cells'⟩ n) (limits : Limits)
    (p : Parameters α) :
    (solve limits p ⟨n, cells'⟩ : ExceptT SolveError (Draw γ) (Solution α)) =
      solve limits p ⟨n, cells⟩ := by
  cases valid : p.check with
  | error failure =>
      have refused : p.check.mapError SolveError.invalidParameter =
          .error (.invalidParameter failure) := by rw [valid]; rfl
      funext g
      unfold solve
      rw [Attempt.bind_of_error (Attempt.liftExcept_of_error refused g),
        Attempt.bind_of_error (Attempt.liftExcept_of_error refused g)]
  | ok checked =>
      have positive := Parameters.subproblemSize_pos valid
      rw [solve_listed limits positive counted, solve_listed limits positive counted,
        BinaryQuadratic.solve_of_same_numbers c]

end Refl

/-- The same with every row and cell looked up in the stored data and every index tested. -/
theorem results_eq_of_same_cells :
    (∀ (q q' : Qubo α) (fits : n ≤ q.size) (fits' : n ≤ q'.size),
      q.size ≤ greatestWord → q'.size ≤ greatestWord →
      (∀ i j : Fin n, i ≤ j →
        q'.cell (i.castLE fits') (j.castLE fits') = q.cell (i.castLE fits) (j.castLE fits)) →
      ∀ x : Assignment n,
        energy q' x.toList = energy q x.toList ∧
        flipCosts q' x.toList = flipCosts q x.toList ∧
        (∀ moves : List Nat,
          (track q' x.toList >>= fun s => moves.foldlM (flip q') s) =
            track q x.toList >>= fun s => moves.foldlM (flip q) s) ∧
        (∀ limits effort,
          (orBreak effort (track q' x.toList) >>= fun s => Walk.climb limits q' ⟨s, effort⟩ :
              Attempt γ _) =
            orBreak effort (track q x.toList) >>= fun s => Walk.climb limits q ⟨s, effort⟩) ∧
        (∀ indices, reduce indices q' x.toList = reduce indices q x.toList) ∧
        ∀ limits p effort ceiling,
          (search limits p q' x.toList effort ceiling : Attempt γ _) =
            search limits p q x.toList effort ceiling) ∧
    ∀ cells cells' : Vector α (n * n), n ≤ greatestWord →
      (∀ i j : Fin n, i ≤ j → (Qubo.mk n cells').cell i j = (Qubo.mk n cells).cell i j) →
      ∀ limits p,
        (solve limits p ⟨n, cells'⟩ : ExceptT SolveError (Draw γ) (Solution α)) =
          solve limits p ⟨n, cells⟩ := by
  constructor
  · intro q q' fits fits' counted counted' same x
    have c : q.Corresponds (Embedding.refl α) q' n := ⟨fits, fits', same⟩
    have tracks := track_of_same_numbers c counted counted' x
    refine ⟨?_, ?_, ?_, ?_, ?_, ?_⟩
    · rw [energy_eq_ok fits counted, energy_eq_ok fits' counted', c.energyWithin_eq]
      rfl
    · rw [flipCosts_eq_ok fits counted, flipCosts_eq_ok fits' counted', c.flipCostsWithin_eq]
      exact congrArg (fun costs => Except.ok (Vector.toList costs)) (Vector.map_id _)
    · intro moves
      rw [tracks, track_eq_ok counted fits, ok_bind, ok_bind]
      exact foldlM_flip_of_same_numbers c counted counted' _ moves
    · intro limits effort
      rw [tracks, track_eq_ok counted fits, orBreak_ok, pure_bind, pure_bind]
      exact climb_of_same_numbers c counted counted' limits _ effort
    · intro indices
      rw [reduce_listed fits, reduce_listed fits', reduce_of_same_numbers c]
    · intro limits p effort ceiling
      rw [TabuSearch.run_listed counted fits, TabuSearch.run_listed counted' fits',
        TabuSearch.run_of_same_numbers c]
  · intro cells cells' counted same
    exact solve_of_same_numbers counted ⟨Nat.le_refl n, Nat.le_refl n, same⟩

end Indexed

end BinaryQuadratic
