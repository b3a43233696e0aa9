import BinaryQuadratic.Proofs.BestVisited
import BinaryQuadratic.Proofs.Negation
import BinaryQuadratic.Proofs.Ranking
import BinaryQuadratic.Proofs.Reduction

set_option autoImplicit false

/-! Decomposition in exact arithmetic. A chunk of the ranking has distinct variables, so its subproblem
exists and shifts the energy of the whole by a constant. What its search gains there is gained in
the whole, on top of what the earlier chunks gained. -/

namespace BinaryQuadratic

variable {n : Nat}

def sortedIndices (chunk : List (Fin n)) : List Nat :=
  insertionSort (fun i j => decide (i ≤ j)) (chunk.map (·.val))

theorem perm_sortedIndices (chunk : List (Fin n)) :
    (sortedIndices chunk).Perm (chunk.map (·.val)) :=
  perm_insertionSort _ _

theorem ascending_sortedIndices {chunk : List (Fin n)} (distinct : chunk.Nodup) :
    (sortedIndices chunk).Pairwise (· < ·) :=
  ascending_insertionSort (distinct.map Fin.val_injective)

theorem lt_of_mem_sortedIndices {chunk : List (Fin n)} : ∀ v ∈ sortedIndices chunk, v < n := by
  intro v member
  obtain ⟨i, _, rfl⟩ := List.mem_map.mp ((perm_sortedIndices chunk).mem_iff.mp member)
  exact i.isLt

theorem exists_reduce {α : Type} [Coefficient α] {work : Qubo α} (fits : n ≤ work.size)
    {chunk : List (Fin n)} (distinct : chunk.Nodup) (x : Assignment n) :
    ∃ indices : List (Fin n), indices.Pairwise (· < ·) ∧
      reduce (sortedIndices chunk) work x = .ok (Subproblem.ofIndices work fits x indices) := by
  have ascending := ascending_sortedIndices distinct
  have inside : ∀ v ∈ sortedIndices chunk, v < n := lt_of_mem_sortedIndices
  refine ⟨(sortedIndices chunk).pmap Fin.mk inside, ?_, reduce_of_ascending fits x ascending inside⟩
  rw [← map_val_pmap_mk inside, List.pairwise_map] at ascending
  exact ascending

/-! ### The search of a chunk -/

theorem writeBack_assignment (indices : List (Fin n)) (y : Assignment indices.length)
    (x : Assignment n) : (writeBack indices y.toList x).1 = .ok () := by
  apply writeBack_of_length_le
  rw [Vector.length_toList]

/-- What is written back moves the energy of the whole as it moves that of the subproblem. -/
theorem Subproblem.energyWithin_writeBack_eq_add {q : Qubo ℚ} {fits : n ≤ q.size} {x : Assignment n}
    {indices : List (Fin n)} (ascending : indices.Pairwise (· < ·))
    (inside : indices.length ≤ (matrix q fits x indices).size) (y : Assignment indices.length) :
    q.energyWithin fits (writeBack indices y.toList x).2 = q.energyWithin fits x +
      ((matrix q fits x indices).energyWithin inside y -
        (matrix q fits x indices).energyWithin inside (ofIndices q fits x indices).solution) := by
  have start : q.energyWithin fits x =
      (matrix q fits x indices).energyWithin inside (ofIndices q fits x indices).solution +
        q.energyWithin fits (x.cleared indices) := by
    apply energyWithin_split ascending inside
    · intro k
      exact (Vector.get_ofFn (fun k => x.get (indices.get k)) k).symm
    · exact fun v _ => rfl
    · intro v chosen
      simp [Assignment.get_cleared, chosen]
    · intro v absent
      simp [Assignment.get_cleared, absent]
  rw [energyWithin_writeBack ascending inside, start]
  ring

namespace Solver

variable {α γ : Type} [Coefficient α] [Generator γ]

section Steps

variable (limits : Limits) (p : Parameters α) (work : Qubo α)

abbrev chunkSearch (sub : Subproblem α n) : Attempt γ (Searched α sub.indices.length) :=
  (p.subproblemSearch n).run limits sub.qubo sub.solution Effort.zero p.subproblemBudget

/-- The decomposition of `x` comes to a chunk, with what the earlier chunks left. -/
def ComesTo (x : Assignment n) (g : γ) (chunk : List (Fin n)) (s : Partial n) (g₁ : γ) : Prop :=
  ∃ costs before after, work.flipCosts x = .ok costs ∧
    chunks p.subproblemSize (ranking costs) = before ++ chunk :: after ∧
    before.foldlM (searchChunk limits p work) (x, 0) g = some (.ok s, g₁)

end Steps

variable {limits : Limits}

theorem searchChunk_of_ends {p : Parameters α} {work : Qubo α} {s : Partial n} {g g' : γ}
    {chunk : List (Fin n)} {sub : Subproblem α n} {found : Searched α sub.indices.length}
    (reduced : reduce (sortedIndices chunk) work s.1 = .ok sub)
    (ends : chunkSearch limits p sub g = some (.ok found, g')) :
    searchChunk limits p work s chunk g =
      some (.ok ((writeBack sub.indices found.bits.toList s.1).2, s.2 + found.effort.total), g') := by
  rcases s with ⟨x, spent⟩
  refine (Attempt.bind_of_ok (Attempt.liftExcept_of_ok reduced g)).trans ?_
  refine (Attempt.bind_of_ok (Attempt.adapt_eq_ok_iff.mpr ends)).trans ?_
  exact Attempt.bind_of_ok (Attempt.liftExcept_of_ok (writeBack_assignment _ found.bits x) g')

theorem exists_of_searchChunk {p : Parameters α} {work : Qubo α} {s s' : Partial n} {g g' : γ}
    {chunk : List (Fin n)} (ends : searchChunk limits p work s chunk g = some (.ok s', g')) :
    ∃ sub found g₁, reduce (sortedIndices chunk) work s.1 = .ok sub ∧
      chunkSearch limits p sub g = some (.ok found, g₁) := by
  obtain ⟨sub, g₁, reduces, ends⟩ := Attempt.bind_eq_ok_iff.mp ends
  obtain ⟨reduced, rfl⟩ := Attempt.liftExcept_eq_ok_iff.mp reduces
  obtain ⟨found, g₂, searches, _⟩ := Attempt.bind_eq_ok_iff.mp ends
  exact ⟨sub, found, g₂, reduced, Attempt.adapt_eq_ok_iff.mp searches⟩

section Exact

variable (limits) (p : Parameters ℚ) (work : Qubo ℚ) (chunk : List (Fin n)) (s : Partial n) (g : γ)

/-- The chunk has a subproblem over its variables in order, and if the search of that ends well, so
does the step over the chunk: the energy of the whole changes by as much as the energy of the
subproblem, which never falls. -/
def Gains : Prop :=
  ∃ sub, reduce (sortedIndices chunk) work s.1 = .ok sub ∧
    ∀ found g', chunkSearch limits p sub g = some (.ok found, g') →
      ∃ y start finish energy,
        searchChunk limits p work s chunk g = some (.ok (y, s.2 + found.effort.total), g') ∧
        writeBack sub.indices found.bits.toList s.1 = (.ok (), y) ∧
        sub.qubo.energy sub.solution = .ok start ∧ sub.qubo.energy found.bits = .ok finish ∧
        work.energy s.1 = .ok energy ∧ work.energy y = .ok (energy + (finish - start)) ∧
        start ≤ finish

/-- The search of the subproblem over the chunk does not end well. -/
def Stops : Prop :=
  ∃ sub, reduce (sortedIndices chunk) work s.1 = .ok sub ∧
    ∀ found g', chunkSearch limits p sub g ≠ some (.ok found, g')

variable {limits p work chunk s g}

theorem gains_of_nodup (fits : n ≤ work.size) (distinct : chunk.Nodup) :
    Gains limits p work chunk s g := by
  obtain ⟨indices, ascending, reduced⟩ := exists_reduce fits distinct s.1
  let sub := Subproblem.ofIndices work fits s.1 indices
  have inside : sub.indices.length ≤ sub.qubo.size := le_rfl
  refine ⟨sub, reduced, ?_⟩
  intro found g' ends
  let y := (writeBack sub.indices found.bits.toList s.1).2
  have written : writeBack sub.indices found.bits.toList s.1 = (.ok (), y) :=
    Prod.ext (writeBack_assignment _ found.bits s.1) rfl
  have evaluated : ∀ z : Assignment sub.indices.length,
      sub.qubo.energy z = .ok (sub.qubo.energyWithin inside z) := Qubo.energy_of_fits inside
  have gained : work.energyWithin fits y = work.energyWithin fits s.1 +
      (sub.qubo.energyWithin inside found.bits - sub.qubo.energyWithin inside sub.solution) :=
    Subproblem.energyWithin_writeBack_eq_add ascending inside found.bits
  refine ⟨y, _, _, _, searchChunk_of_ends reduced ends, written, evaluated sub.solution,
    evaluated found.bits, Qubo.energy_of_fits fits s.1, ?_, TabuSearch.energy_le_of_run ends inside⟩
  rw [Qubo.energy_of_fits fits, gained]

theorem Gains.step_or_stops (gains : Gains limits p work chunk s g) (fits : n ≤ work.size) :
    (∃ s' g', searchChunk limits p work s chunk g = some (.ok s', g') ∧
      work.energyWithin fits s.1 ≤ work.energyWithin fits s'.1) ∨
    Stops limits p work chunk s g := by
  obtain ⟨sub, reduced, step⟩ := gains
  by_cases ends : ∃ found g', chunkSearch limits p sub g = some (.ok found, g')
  · obtain ⟨found, g', ends⟩ := ends
    obtain ⟨y, start, finish, energy, stepped, _, _, _, before, after, no_loss⟩ := step found g' ends
    refine .inl ⟨_, g', stepped, ?_⟩
    rw [Qubo.energy_of_fits fits, Except.ok.injEq] at before after
    rw [before, after]
    exact le_add_of_nonneg_right (sub_nonneg.mpr no_loss)
  · exact .inr ⟨sub, reduced, fun found g' other => ends ⟨found, g', other⟩⟩

theorem Stops.searchChunk_ne (stops : Stops limits p work chunk s g) (s' : Partial n) (g' : γ) :
    searchChunk limits p work s chunk g ≠ some (.ok s', g') := by
  intro ends
  obtain ⟨sub, reduced, fails⟩ := stops
  obtain ⟨sub', found, g₁, reduced', searches⟩ := exists_of_searchChunk ends
  cases reduced.symm.trans reduced'
  exact fails found g₁ searches

theorem Stops.foldlM_ne {before after : List (List (Fin n))} {s₀ : Partial n} {g₀ : γ}
    (stops : Stops limits p work chunk s g)
    (searched : before.foldlM (searchChunk limits p work) s₀ g₀ = some (.ok s, g))
    (s' : Partial n) (g' : γ) :
    (before ++ chunk :: after).foldlM (searchChunk limits p work) s₀ g₀ ≠ some (.ok s', g') := by
  intro ends
  rw [List.foldlM_append, Attempt.bind_of_ok searched, List.foldlM_cons] at ends
  obtain ⟨s₁, g₁, stepped, _⟩ := Attempt.bind_eq_ok_iff.mp ends
  exact stops.searchChunk_ne s₁ g₁ stepped

/-- Chunk after chunk is searched and the energy never falls, unless a search does not end well. -/
theorem energy_of_foldlM_searchChunk (limits : Limits) (p : Parameters ℚ) (fits : n ≤ work.size)
    {items : List (List (Fin n))} (distinct : ∀ chunk ∈ items, chunk.Nodup) (s : Partial n)
    (g : γ) :
    (∃ s' g', items.foldlM (searchChunk limits p work) s g = some (.ok s', g') ∧
      work.energyWithin fits s.1 ≤ work.energyWithin fits s'.1) ∨
    ∃ before chunk after s₁ g₁, items = before ++ chunk :: after ∧
      before.foldlM (searchChunk limits p work) s g = some (.ok s₁, g₁) ∧
      Stops limits p work chunk s₁ g₁ := by
  induction items generalizing s g with
  | nil => exact .inl ⟨s, g, rfl, le_rfl⟩
  | cons chunk rest ih =>
      obtain ⟨chunk_distinct, rest_distinct⟩ := List.forall_mem_cons.mp distinct
      have gains : Gains limits p work chunk s g := gains_of_nodup fits chunk_distinct
      rcases gains.step_or_stops fits with ⟨s₁, g₁, stepped, grown⟩ | stops
      · rcases ih rest_distinct s₁ g₁ with
          ⟨s', g', searched, onward⟩ | ⟨before, stuck, after, s₂, g₂, split, searched, stops⟩
        · refine .inl ⟨s', g', ?_, grown.trans onward⟩
          rw [List.foldlM_cons, Attempt.bind_of_ok stepped]
          exact searched
        · refine .inr ⟨chunk :: before, stuck, after, s₂, g₂, ?_, ?_, stops⟩
          · rw [split, List.cons_append]
          · rw [List.foldlM_cons, Attempt.bind_of_ok stepped]
            exact searched
      · exact .inr ⟨[], chunk, rest, s, g, rfl, rfl, stops⟩

/-- In the decomposition of any assignment, every chunk that it comes to gains what its subproblem
gains; at its end there is no less energy than at its beginning; and it does end well if the search
of every chunk that it comes to does. -/
theorem energy_of_diversify {q : Qubo ℚ} (large : p.subproblemSize < q.size) (limits : Limits)
    (x : Assignment q.size) (g : γ) :
    (∀ chunk s g₁, ComesTo limits p (p.maximized q) x g chunk s g₁ →
      Gains limits p (p.maximized q) chunk s g₁) ∧
    (∀ y spent g', diversify limits p (p.maximized q) x g = some (.ok (y, spent), g') →
      ∃ start finish, (p.maximized q).energy x = .ok start ∧ (p.maximized q).energy y = .ok finish ∧
        start ≤ finish) ∧
    ((∀ chunk s g₁, ComesTo limits p (p.maximized q) x g chunk s g₁ →
        ¬Stops limits p (p.maximized q) chunk s g₁) →
      ∃ y spent g', diversify limits p (p.maximized q) x g = some (.ok (y, spent), g')) := by
  have fits : q.size ≤ (p.maximized q).size := (p.size_maximized q).ge
  generalize p.maximized q = work at fits ⊢
  have distinct : ∀ costs : Vector ℚ q.size,
      ∀ chunk ∈ chunks p.subproblemSize (ranking costs), chunk.Nodup := fun costs _ member =>
    nodup_of_mem_chunks (nodup_ranking costs) member
  have costs_eq := Qubo.flipCosts_of_fits fits x
  have decomposes : diversify limits p work x g =
      (chunks p.subproblemSize (ranking (work.flipCostsWithin fits x))).foldlM
        (searchChunk limits p work) (x, 0) g := by
    unfold diversify
    rw [if_pos large]
    exact Attempt.bind_of_ok (Attempt.liftExcept_of_ok costs_eq g)
  have course := energy_of_foldlM_searchChunk limits p fits
    (distinct (work.flipCostsWithin fits x)) (x, 0) g
  rw [decomposes]
  refine ⟨?_, ?_, ?_⟩
  · rintro chunk s g₁ ⟨costs, before, after, _, split, _⟩
    apply gains_of_nodup fits
    apply distinct costs
    rw [split]
    exact List.mem_append_right before List.mem_cons_self
  · intro y spent g' ends
    rcases course with
      ⟨s, g₁, searched, grown⟩ | ⟨before, chunk, after, s, g₁, split, searched, stops⟩
    · cases searched.symm.trans ends
      exact ⟨_, _, Qubo.energy_of_fits fits x, Qubo.energy_of_fits fits y, grown⟩
    · rw [split] at ends
      exact absurd ends (stops.foldlM_ne searched _ _)
  · intro none_stops
    rcases course with
      ⟨s, g₁, searched, _⟩ | ⟨before, chunk, after, s, g₁, split, searched, stops⟩
    · exact ⟨s.1, s.2, g₁, searched⟩
    · exact absurd stops (none_stops chunk s g₁ ⟨_, before, after, costs_eq, split, searched⟩)

/-- The minimum is sought on the negated matrix, whose energy rises from -7/6 to 3. -/
theorem energy_of_diversify_three_chunks :
    let q : Qubo ℚ := ⟨5, #v[1, -3, 1 / 2, 2, -1, 0, 2, -1, 4, -5 / 2, 0, 0, -1 / 3, 1, 2,
      0, 0, 0, 1, -3, 0, 0, 0, 0, 1 / 2]⟩
    let p : Parameters ℚ := { subproblemSize := 2, tenure := some 1, subproblemBudget := 4 }
    let limits := Limits.uniform 40
    let x : Assignment 5 := #v[true, false, true, false, false]
    let g : Scripted :=
      ⟨#[5, 0x9e3779b97f4a7c15, 0xdeadbeefcafebabe, 0x123456789abcdef0], by decide, 0⟩
    p.subproblemSize < q.size ∧
    (∃ found g', diversify limits p (p.maximized q) x g = some (.ok found, g') ∧
      found.1 = #v[true, true, false, false, true]) ∧
    (p.maximized q).energy x = .ok (-7 / 6) ∧
    (p.maximized q).energy (#v[true, true, false, false, true] : Assignment 5) = .ok 3 ∧
    (∀ chunk s g₁, ComesTo limits p (p.maximized q) x g chunk s g₁ →
      Gains limits p (p.maximized q) chunk s g₁) ∧
    (∀ y spent g', diversify limits p (p.maximized q) x g = some (.ok (y, spent), g') →
      ∃ start finish, (p.maximized q).energy x = .ok start ∧ (p.maximized q).energy y = .ok finish ∧
        start ≤ finish) ∧
    ((∀ chunk s g₁, ComesTo limits p (p.maximized q) x g chunk s g₁ →
        ¬Stops limits p (p.maximized q) chunk s g₁) →
      ∃ y spent g', diversify limits p (p.maximized q) x g = some (.ok (y, spent), g')) := by
  intro q p limits x g
  have large : p.subproblemSize < q.size := by decide
  have reported : ((diversify limits p (p.maximized q) x g).map fun result =>
      result.1.toOption.map fun found => found.1) =
        some (some #v[true, true, false, false, true]) := by
    decide +kernel
  exact ⟨large, Attempt.exists_ok_of_report reported, by decide +kernel, by decide +kernel,
    energy_of_diversify large limits x g⟩

end Exact

end Solver

end BinaryQuadratic
