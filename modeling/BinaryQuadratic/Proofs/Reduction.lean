import BinaryQuadratic.Proofs.Objective
import BinaryQuadratic.Subproblem

set_option autoImplicit false

/-! The subproblem over some of the variables keeps the objective: its energy differs from the energy
of the whole by what the held variables contribute among themselves. The couplings across are the
clamps on its diagonal. -/

namespace BinaryQuadratic

variable {n : Nat}

theorem writeBack_of_length_le (indices : List (Fin n)) (values : List Bool) (x : Assignment n)
    (enough : indices.length ≤ values.length) : (writeBack indices values x).1 = .ok () := by
  induction indices generalizing values x with
  | nil => rfl
  | cons v rest ih =>
      cases values with
      | nil => cases enough
      | cons value values => exact ih values _ (Nat.le_of_succ_le_succ enough)

theorem get_writeBack_of_not_mem {indices : List (Fin n)} (values : List Bool) (x : Assignment n)
    {i : Fin n} (absent : i ∉ indices) : (writeBack indices values x).2.get i = x.get i := by
  induction indices generalizing values x with
  | nil => rfl
  | cons v rest ih =>
      cases values with
      | nil => rfl
      | cons value values =>
          rw [List.mem_cons, not_or] at absent
          rw [writeBack, ih values _ absent.2, Assignment.get_set, if_neg absent.1]

theorem get_writeBack_getElem {indices : List (Fin n)} (distinct : indices.Nodup)
    (values : List Bool) (x : Assignment n) (k : Nat) (inside : k < indices.length)
    (given : k < values.length) :
    (writeBack indices values x).2.get indices[k] = values[k] := by
  induction indices generalizing values x k with
  | nil => cases inside
  | cons v rest ih =>
      rw [List.nodup_cons] at distinct
      cases values with
      | nil => cases given
      | cons value values =>
          cases k with
          | zero =>
              rw [List.getElem_cons_zero, List.getElem_cons_zero, writeBack,
                get_writeBack_of_not_mem values _ distinct.1, Assignment.get_set, if_pos rfl]
          | succ k =>
              exact ih distinct.2 values _ k (Nat.lt_of_succ_lt_succ inside)
                (Nat.lt_of_succ_lt_succ given)

theorem get_writeBack_get {indices : List (Fin n)} (ascending : indices.Pairwise (· < ·))
    (y : Assignment indices.length) (x : Assignment n) (k : Fin indices.length) :
    (writeBack indices y.toList x).2.get (indices.get k) = y.get k := by
  have distinct : indices.Nodup := ascending.imp fun before => before.ne
  have given : k.val < y.toList.length := by simp
  exact get_writeBack_getElem distinct y.toList x k.val k.isLt given

def Assignment.cleared (x : Assignment n) (indices : List (Fin n)) : Assignment n :=
  Vector.ofFn fun v => x.get v && !indices.contains v

theorem Assignment.get_cleared (x : Assignment n) (indices : List (Fin n)) (v : Fin n) :
    (x.cleared indices).get v = (x.get v && !indices.contains v) :=
  Vector.get_ofFn _ v

/-! ### The matrix of the subproblem -/

namespace Subproblem

variable {q : Qubo ℚ} {fits : n ≤ q.size} {x : Assignment n} {indices : List (Fin n)}

theorem clamp_eq_sum {rest : Assignment n} (cleared : ∀ v ∈ indices, rest.get v = false)
    (kept : ∀ v, v ∉ indices → rest.get v = x.get v) (v : Fin n) :
    clamp q fits (x.support.filter (!indices.contains ·)) v =
      ∑ j, q.coupling fits v j * rest.value j := by
  unfold clamp Assignment.support
  rw [foldl_add_eq_sum, zero_add, List.filter_filter, sum_map_filter_finRange]
  refine Finset.sum_congr rfl fun j _ => ?_
  by_cases chosen : j ∈ indices
  · simp [chosen, Assignment.value_of_get (cleared j chosen)]
  · simp [chosen, Assignment.value, kept j chosen]

theorem coupling_matrix (inside : indices.length ≤ (matrix q fits x indices).size)
    (a b : Fin indices.length) (ordered : a ≤ b) :
    (matrix q fits x indices).coupling inside a b =
      q.coupling fits (indices.get a) (indices.get b) +
        if a = b then clamp q fits (x.support.filter (!indices.contains ·)) (indices.get a)
        else 0 := by
  refine (Qubo.coupling_ofFn _ inside a b ordered).trans ?_
  simp only [Vector.get_ofFn]
  rcases lt_or_eq_of_le ordered with before | same
  · rw [if_pos before, if_neg before.ne, add_zero]
  · subst same
    rw [if_neg (lt_irrefl a), if_pos rfl, if_pos rfl]

/-- The energy law, for any two assignments that agree with `x` on the held variables: `full` has
the values of `y` on the chosen ones, and `rest` has zeros there. -/
theorem energyWithin_split (ascending : indices.Pairwise (· < ·))
    (inside : indices.length ≤ (matrix q fits x indices).size)
    {y : Assignment indices.length} {full rest : Assignment n}
    (given : ∀ k, full.get (indices.get k) = y.get k)
    (untouched : ∀ v, v ∉ indices → full.get v = x.get v)
    (cleared : ∀ v ∈ indices, rest.get v = false)
    (kept : ∀ v, v ∉ indices → rest.get v = x.get v) :
    q.energyWithin fits full =
      (matrix q fits x indices).energyWithin inside y + q.energyWithin fits rest := by
  have choice : StrictMono indices.get := List.sortedLT_iff_pairwise.mpr ascending
  let chosen : Fin n → ℚ := fun i => if i ∈ indices then full.value i else 0
  have chosen_outside : ∀ i, i ∉ Set.range indices.get → chosen i = 0 := by
    intro i outside
    rw [Set.range_list_get] at outside
    exact if_neg outside
  have chosen_get : ∀ a, chosen (indices.get a) = y.value a := by
    intro a
    change (if indices.get a ∈ indices then full.value (indices.get a) else 0) = y.value a
    rw [if_pos (List.get_mem indices a), Assignment.value_of_get (given a)]
    rfl
  have parts : full.value = fun i => chosen i + rest.value i := by
    funext i
    by_cases member : i ∈ indices
    · simp [chosen, member, Assignment.value_of_get (cleared i member)]
    · simp [chosen, member, Assignment.value, untouched i member, kept i member]
  have disjoint : ∀ i, chosen i * rest.value i = 0 := by
    intro i
    by_cases member : i ∈ indices
    · simp [Assignment.value_of_get (cleared i member)]
    · simp [chosen, member]
  have within : quadratic (q.coupling fits) chosen =
      quadratic (fun a b => q.coupling fits (indices.get a) (indices.get b)) y.value := by
    rw [quadratic.restrict choice chosen_outside]
    simp only [chosen_get]
  have across : (∑ i, ∑ j, q.coupling fits i j * chosen i * rest.value j) =
      ∑ a, clamp q fits (x.support.filter (!indices.contains ·)) (indices.get a) *
        y.value a * y.value a := by
    refine (Fintype.sum_of_injective indices.get choice.injective _ _ ?_ ?_).symm
    · intro i outside
      simp only [chosen_outside i outside, mul_zero, zero_mul, Finset.sum_const_zero]
    · intro a
      rw [clamp_eq_sum cleared kept, mul_assoc, Assignment.value_mul_self, Finset.sum_mul]
      refine Finset.sum_congr rfl fun j _ => ?_
      rw [chosen_get, mul_right_comm]
  calc q.energyWithin fits full
      = quadratic (q.coupling fits) chosen + quadratic (q.coupling fits) rest.value +
          ∑ i, ∑ j, q.coupling fits i j * chosen i * rest.value j := by
        rw [Qubo.energyWithin_eq_quadratic, parts,
          quadratic.add_of_disjoint (Qubo.coupling_comm q fits) disjoint]
    _ = quadratic ((matrix q fits x indices).coupling inside) y.value +
          quadratic (q.coupling fits) rest.value := by
        rw [quadratic.congr_upper y.value (coupling_matrix inside), quadratic.add_diagonal, within,
          across]
        ring
    _ = _ := by
        rw [Qubo.energyWithin_eq_quadratic, Qubo.energyWithin_eq_quadratic]

theorem energyWithin_writeBack (ascending : indices.Pairwise (· < ·))
    (inside : indices.length ≤ (matrix q fits x indices).size) (y : Assignment indices.length) :
    q.energyWithin fits (writeBack indices y.toList x).2 =
      (matrix q fits x indices).energyWithin inside y + q.energyWithin fits (x.cleared indices) := by
  apply energyWithin_split ascending inside
  · exact get_writeBack_get ascending y x
  · intro v absent
    exact get_writeBack_of_not_mem y.toList x absent
  · intro v chosen
    simp [Assignment.get_cleared, chosen]
  · intro v absent
    simp [Assignment.get_cleared, absent]

end Subproblem

theorem reduce_of_ascending {α : Type} [Coefficient α] {q : Qubo α} (fits : n ≤ q.size)
    (x : Assignment n) {indices : List Nat} (ascending : indices.Pairwise (· < ·))
    (inside : ∀ v ∈ indices, v < n) :
    reduce indices q x = .ok (Subproblem.ofIndices q fits x (indices.pmap Fin.mk inside)) := by
  unfold reduce
  rw [Qubo.checkLength_of_fits fits]
  simp only [bind, Except.bind, if_pos ascending, dif_pos inside]
  rfl

theorem map_val_pmap_mk {indices : List Nat} (inside : ∀ v ∈ indices, v < n) :
    (indices.pmap Fin.mk inside).map Fin.val = indices := by
  rw [List.map_pmap]
  exact List.pmap_eq_self.mpr fun _ _ => rfl

theorem pairwise_pmap_mk {indices : List Nat} (ascending : indices.Pairwise (· < ·))
    (inside : ∀ v ∈ indices, v < n) : (indices.pmap Fin.mk inside).Pairwise (· < ·) := by
  rw [← map_val_pmap_mk inside, List.pairwise_map] at ascending
  exact ascending

/-- For every choice of variables in ascending order there is a subproblem over just these, and
every assignment of it has the energy that the whole has with the assignment written back, less the
energy of the whole with the chosen variables at zero. -/
theorem energy_writeBack_reduce (q : Qubo ℚ) (x : Assignment n) (fits : n ≤ q.size)
    (indices : List Nat) (ascending : indices.Pairwise (· < ·)) (inside : ∀ v ∈ indices, v < n) :
    ∃ sub, reduce indices q x = .ok sub ∧ sub.indices.map Fin.val = indices ∧
      ∀ y : Assignment sub.indices.length, ∃ full subEnergy restEnergy,
        writeBack sub.indices y.toList x = (.ok (), full) ∧
        (∀ k, full.get (sub.indices.get k) = y.get k) ∧
        (∀ v, v ∉ sub.indices → full.get v = x.get v) ∧
        sub.qubo.energy y = .ok subEnergy ∧
        q.energy (x.cleared sub.indices) = .ok restEnergy ∧
        q.energy full = .ok (subEnergy + restEnergy) := by
  let chosen := indices.pmap Fin.mk inside
  have listed : chosen.map Fin.val = indices := map_val_pmap_mk inside
  have sorted : chosen.Pairwise (· < ·) := pairwise_pmap_mk ascending inside
  refine ⟨Subproblem.ofIndices q fits x chosen, reduce_of_ascending fits x ascending inside, listed,
    fun (y : Assignment chosen.length) => ?_⟩
  let matrix := Subproblem.matrix q fits x chosen
  have whole : chosen.length ≤ matrix.size := le_rfl
  refine ⟨(writeBack chosen y.toList x).2, matrix.energyWithin whole y,
    q.energyWithin fits (x.cleared chosen), ?_, get_writeBack_get sorted y x,
    fun v => get_writeBack_of_not_mem y.toList x, Qubo.energy_of_fits whole y,
    Qubo.energy_of_fits fits _, ?_⟩
  · have enough : chosen.length ≤ y.toList.length := by simp
    exact Prod.ext (writeBack_of_length_le chosen y.toList x enough) rfl
  · rw [Qubo.energy_of_fits fits]
    exact congrArg Except.ok (Subproblem.energyWithin_writeBack sorted whole y)

/-- With both chosen variables at one, 9 of the energy 19/2 is the subproblem's. -/
theorem energy_writeBack_reduce_leading_block :
    let q : Qubo ℚ := ⟨4, #v[1, -2, 7, 5, 3, 1 / 2, 4, 6, 3, 3, -1, 2, 3, 3, 3, 8]⟩
    let x : Assignment 3 := #v[true, true, false]
    3 ≤ q.size ∧ ([0, 2] : List Nat).Pairwise (· < ·) ∧ (∀ v ∈ ([0, 2] : List Nat), v < 3) ∧
    ∃ sub, reduce [0, 2] q x = .ok sub ∧ sub.indices.map Fin.val = [0, 2] ∧
      (∀ y : Assignment sub.indices.length, ∃ full subEnergy restEnergy,
        writeBack sub.indices y.toList x = (.ok (), full) ∧
        (∀ k, full.get (sub.indices.get k) = y.get k) ∧
        (∀ v, v ∉ sub.indices → full.get v = x.get v) ∧
        sub.qubo.energy y = .ok subEnergy ∧
        q.energy (x.cleared sub.indices) = .ok restEnergy ∧
        q.energy full = .ok (subEnergy + restEnergy)) ∧
      sub.qubo.energy (Vector.replicate 2 true) = .ok 9 ∧
      q.energy (x.cleared sub.indices) = .ok (1 / 2) ∧
      writeBack sub.indices (List.replicate 2 true) x = (.ok (), #v[true, true, true]) ∧
      q.energy (#v[true, true, true] : Assignment 3) = .ok (19 / 2) := by
  intro q x
  obtain ⟨sub, reduces, listed, splits⟩ :=
    energy_writeBack_reduce q x (by decide) [0, 2] (by decide) (by decide)
  have numbers : (reduce [0, 2] q x).map (fun sub =>
      (sub.qubo.energy (Vector.replicate 2 true), q.energy (x.cleared sub.indices),
        writeBack sub.indices (List.replicate 2 true) x)) =
      .ok (.ok 9, .ok (1 / 2), .ok (), #v[true, true, true]) := by
    decide +kernel
  rw [reduces] at numbers
  simp only [Except.map, Except.ok.injEq, Prod.mk.injEq] at numbers
  obtain ⟨chosen, rest, written⟩ := numbers
  exact ⟨by decide, by decide, by decide, sub, reduces, listed, splits, chosen, rest, written,
    by decide +kernel⟩

end BinaryQuadratic
