import BinaryQuadratic.Binary64
import BinaryQuadratic.Proofs.Indexed.Reduction

set_option autoImplicit false

/-! Subproblems and the assignments they are written back to. The matrix of a subproblem depends on the
held variables only, and the chosen ones keep what is written to them, so cutting the same subproblem
out again finds the same matrix and the values that were written. -/

namespace BinaryQuadratic

variable {α : Type} [Coefficient α] {n : Nat}

namespace Subproblem

variable {q : Qubo α} {fits : n ≤ q.size} {x x' : Assignment n} {indices : List (Fin n)}

theorem matrix_of_same_held (held : ∀ v, v ∉ indices → x'.get v = x.get v) :
    matrix q fits x' indices = matrix q fits x indices := by
  have same : x'.support.filter (!indices.contains ·) = x.support.filter (!indices.contains ·) := by
    unfold Assignment.support
    rw [List.filter_filter, List.filter_filter]
    refine List.filter_congr fun v _ => ?_
    by_cases chosen : v ∈ indices
    · simp [chosen]
    · simp [chosen, held v chosen]
  unfold matrix
  rw [same]

/-- The assignment may differ in the chosen variables, whose values are those of the solution. -/
theorem ofIndices_of_same_held (held : ∀ v, v ∉ indices → x'.get v = x.get v)
    {y : Assignment indices.length} (given : ∀ k, x'.get (indices.get k) = y.get k) :
    ofIndices q fits x' indices = { ofIndices q fits x indices with solution := y } := by
  have solution_eq : Vector.ofFn (fun k => x'.get (indices.get k)) = y := by
    refine Assignment.ext_get fun k => ?_
    rw [Vector.get_ofFn]
    exact given k
  unfold ofIndices
  rw [matrix_of_same_held held, solution_eq]

end Subproblem

/-- Values that the variables have already change nothing. -/
theorem writeBack_of_given {indices : List (Fin n)} (ascending : indices.Pairwise (· < ·))
    {y : Assignment indices.length} {x : Assignment n}
    (given : ∀ k, x.get (indices.get k) = y.get k) :
    writeBack indices y.toList x = (.ok (), x) := by
  refine Prod.ext (writeBack_of_length_le indices y.toList x y.length_toList.ge) ?_
  refine Assignment.ext_get fun v => ?_
  by_cases chosen : v ∈ indices
  · obtain ⟨k, rfl⟩ := List.get_of_mem chosen
    rw [get_writeBack_get ascending, given]
  · exact get_writeBack_of_not_mem y.toList x chosen

/-- A subproblem over any choice of variables in ascending order can be written back with any solution.
This changes at most the chosen variables, each of which gets its value; reducing again gives the
same indices, the same matrix and that solution. What was cut out is written back without a
change, and the walks along indices and variables do all of this alike. -/
theorem reduce_writeBack (q : Qubo α) (x : Assignment n) (fits : n ≤ q.size) (indices : List Nat)
    (ascending : indices.Pairwise (· < ·)) (inside : ∀ v ∈ indices, v < n) :
    ∃ sub, reduce indices q x = .ok sub ∧ sub.indices.map Fin.val = indices ∧
      writeBack sub.indices sub.solution.toList x = (.ok (), x) ∧
      Indexed.reduce indices q x.toList = .ok sub.listed ∧
      ∀ y : Assignment sub.indices.length, ∃ full,
        writeBack sub.indices y.toList x = (.ok (), full) ∧
        (∀ v, v ∉ sub.indices → full.get v = x.get v) ∧
        (∀ k, full.get (sub.indices.get k) = y.get k) ∧
        reduce indices q full = .ok { sub with solution := y } ∧
        Indexed.writeBack indices y.toList x.toList = .ok full.toList ∧
        Indexed.reduce indices q full.toList =
          .ok (Subproblem.listed { sub with solution := y }) := by
  let chosen := indices.pmap Fin.mk inside
  have listed : chosen.map Fin.val = indices := map_val_pmap_mk inside
  have sorted : chosen.Pairwise (· < ·) := pairwise_pmap_mk ascending inside
  have cut : ∀ x, reduce indices q x = .ok (Subproblem.ofIndices q fits x chosen) := fun x =>
    reduce_of_ascending fits x ascending inside
  have cut_along : ∀ x : Assignment n,
      Indexed.reduce indices q x.toList = .ok (Subproblem.ofIndices q fits x chosen).listed := by
    intro x
    rw [Indexed.reduce_listed fits, cut x]
    rfl
  have own : ∀ k, x.get (chosen.get k) = (Subproblem.ofIndices q fits x chosen).solution.get k :=
    fun k => (Vector.get_ofFn (fun k => x.get (chosen.get k)) k).symm
  refine ⟨Subproblem.ofIndices q fits x chosen, cut x, listed, writeBack_of_given sorted own,
    cut_along x, fun (y : Assignment chosen.length) => ?_⟩
  let full := (writeBack chosen y.toList x).2
  have given : ∀ k, full.get (chosen.get k) = y.get k := get_writeBack_get sorted y x
  have held : ∀ v, v ∉ chosen → full.get v = x.get v := fun v =>
    get_writeBack_of_not_mem y.toList x
  have written_along : Indexed.writeBack indices y.toList x.toList = .ok full.toList := by
    rw [← Indexed.writeBack_eq_ok chosen y x, listed]
  have cut_again : Subproblem.ofIndices q fits full chosen =
      { Subproblem.ofIndices q fits x chosen with solution := y } :=
    Subproblem.ofIndices_of_same_held held given
  refine ⟨full, Prod.ext (writeBack_of_length_le chosen y.toList x y.length_toList.ge) rfl, held,
    given, ?_, written_along, ?_⟩
  · rw [cut full, cut_again]
  · rw [cut_along full, cut_again]

theorem reduce_writeBack_beside_not_numbers :
    let one := Binary64.ofNat 1
    let beyond := Binary64.infinity true
    let none_such := Binary64.quietNaN false
    let q : Qubo Binary64 :=
      ⟨4, #v[-one, one, beyond, one, none_such, -0, one, beyond, one, beyond, none_such, one, one,
        one, one, none_such]⟩
    let x : Assignment 3 := #v[true, true, false]
    3 ≤ q.size ∧ ([0, 2] : List Nat).Pairwise (· < ·) ∧ (∀ v ∈ ([0, 2] : List Nat), v < 3) ∧
    ∃ sub, reduce [0, 2] q x = .ok sub ∧ sub.indices.map Fin.val = [0, 2] ∧
      writeBack sub.indices sub.solution.toList x = (.ok (), x) ∧
      Indexed.reduce [0, 2] q x.toList = .ok sub.listed ∧
      ∀ y : Assignment sub.indices.length, ∃ full,
        writeBack sub.indices y.toList x = (.ok (), full) ∧
        (∀ v, v ∉ sub.indices → full.get v = x.get v) ∧
        (∀ k, full.get (sub.indices.get k) = y.get k) ∧
        reduce [0, 2] q full = .ok { sub with solution := y } ∧
        Indexed.writeBack [0, 2] y.toList x.toList = .ok full.toList ∧
        Indexed.reduce [0, 2] q full.toList = .ok (Subproblem.listed { sub with solution := y }) :=
  ⟨by decide, by decide, by decide,
    reduce_writeBack _ _ (by decide) [0, 2] (by decide) (by decide)⟩

end BinaryQuadratic
