import Mathlib.InformationTheory.Hamming
import BinaryQuadratic.Perturbation
import BinaryQuadratic.Proofs.ExactValue
import BinaryQuadratic.Proofs.Sampling
import BinaryQuadratic.Proofs.Tracking
import BinaryQuadratic.Random.Scripted

set_option autoImplicit false

/-! A random change toggles every variable it picks once, so the assignments before and after are
exactly as far apart as the change has variables. Their number is the share of all variables that
was asked for, multiplied out in double precision and rounded up. -/

namespace BinaryQuadratic

variable {n : Nat}

section Share

open Binary64

variable {fraction share : Binary64}

theorem clampFraction_of_isNaN (number : fraction.isNaN = true) :
    clampFraction fraction = fraction := by
  have not_below : ¬fraction < 0 := by
    intro below
    rw [(lt_iff.mp below).1] at number
    cases number
  have not_above : ¬1 < fraction := by
    intro above
    rw [(lt_iff.mp above).2.1] at number
    cases number
  unfold clampFraction
  rw [if_neg not_below, if_neg not_above]

theorem isNaN_clampFraction (number : fraction.isNaN = false) :
    (clampFraction fraction).isNaN = false := by
  unfold clampFraction
  split
  · rfl
  · split
    · decide +kernel
    · exact number

theorem exact_clampFraction (number : fraction.isNaN = false) :
    (clampFraction fraction).exact = max 0 (min 1 fraction.exact) := by
  have below_iff := lt_iff_exact_lt number (b := 0) rfl
  have above_iff := lt_iff_exact_lt (a := 1) (by decide +kernel) number
  rw [exact_zero] at below_iff
  rw [exact_one] at above_iff
  unfold clampFraction
  by_cases below : fraction < 0
  · rw [if_pos below, exact_zero]
    symm
    apply max_eq_left
    exact (min_le_right _ _).trans (below_iff.mp below).le
  · rw [if_neg below]
    rw [below_iff, not_lt] at below
    by_cases above : 1 < fraction
    · rw [if_pos above, exact_one, min_eq_left (above_iff.mp above).le]
      exact (max_eq_right zero_le_one).symm
    · rw [if_neg above]
      rw [above_iff, not_lt] at above
      rw [min_eq_right above, max_eq_right below]

theorem magnitude_le_of_exact_le_one (number : share.isNaN = false) (nonneg : 0 ≤ share.exact)
    (le_one : share.exact ≤ 1) : share.magnitude ≤ (1 : Binary64).magnitude := by
  rw [← exact_zero, exact_le_iff rfl number] at nonneg
  rw [← exact_one, exact_le_iff number (by decide +kernel)] at le_one
  have zero_ordinal : (0 : Binary64).ordinal = 0 := rfl
  have one_ordinal : (1 : Binary64).ordinal = (1 : Binary64).magnitude := rfl
  rw [zero_ordinal] at nonneg
  rw [one_ordinal] at le_one
  cases sign : share.negative with
  | false =>
      rw [ordinal_of_positive sign] at le_one
      exact Int.ofNat_le.mp le_one
  | true =>
      rw [ordinal_of_negative sign] at nonneg
      omega

/-- A share of at most one takes nothing beyond the range of finite numbers. -/
theorem isFinite_share_mul (le_one : share.magnitude ≤ (1 : Binary64).magnitude)
    {whole : Binary64} (finite : whole.IsFinite) : (share * whole).IsFinite := by
  have one_finite : (1 : Binary64).IsFinite := by decide +kernel
  have share_finite : share.IsFinite := Nat.lt_of_le_of_lt le_one one_finite
  have one_units : units (1 : Binary64).magnitude = 1 <<< onePlace := units_ofNat (by decide)
  have product : (share * whole).magnitude =
      nearest (units share.magnitude * units whole.magnitude) (1 <<< onePlace) := by
    change (mul share whole).magnitude = _
    unfold mul
    simp only [share_finite.isNaN_eq, finite.isNaN_eq, share_finite.isInfinite_eq,
      finite.isInfinite_eq, Bool.false_eq_true, Bool.or_false, if_false]
    rfl
  have values : units share.magnitude ≤ 1 <<< onePlace := by
    rw [← one_units]
    exact units_le_units one_finite.le le_one
  have bounded : nearest (units share.magnitude * units whole.magnitude) (1 <<< onePlace) ≤
      nearest (units whole.magnitude) 1 := by
    apply nearest_mono (shiftLeft_pos Nat.one_pos onePlace) Nat.one_pos
    rw [Nat.mul_one, Nat.mul_comm (units whole.magnitude)]
    exact Nat.mul_le_mul_right _ values
  rw [nearest_units finite.le, ← product] at bounded
  exact Nat.lt_of_le_of_lt bounded finite

theorem isFinite_clampFraction_mul (number : fraction.isNaN = false)
    (few : n < 0x20000000000000) : (clampFraction fraction * Binary64.ofNat n).IsFinite := by
  apply isFinite_share_mul _ (isFinite_ofNat few)
  have clamped := exact_clampFraction number
  apply magnitude_le_of_exact_le_one (isNaN_clampFraction number)
  · rw [clamped]
    exact le_max_left _ _
  · rw [clamped]
    exact max_le zero_le_one (min_le_left _ _)

theorem changeCount_of_isNaN (number : fraction.isNaN = true) (some_variable : 0 < n) :
    changeCount fraction n = 1 := by
  have product : clampFraction fraction * Binary64.ofNat n = fraction.quieted := by
    rw [clampFraction_of_isNaN number]
    exact if_pos number
  unfold changeCount
  rw [product, ceilNat_of_isNaN (isNaN_quieted number)]
  exact Nat.min_eq_left some_variable

theorem changeCount_eq (number : fraction.isNaN = false) (few : n < 0x20000000000000) :
    changeCount fraction n =
      min n (max 1 ⌈(clampFraction fraction * Binary64.ofNat n).exact⌉₊) := by
  have finite := isFinite_clampFraction_mul number few
  unfold changeCount
  rw [ceilNat_eq_ceil finite.isNaN_eq, Nat.min_comm, Nat.max_comm]

end Share

/-! ### The change -/

namespace Assignment

variable {x : Assignment n} {picked : List (Fin n)}

theorem get_foldl_toggle_ne_iff (distinct : picked.Nodup) (v : Fin n) :
    (picked.foldl toggle x).get v ≠ x.get v ↔ v ∈ picked := by
  rw [get_foldl_toggle, distinct.count]
  by_cases member : v ∈ picked
  · simp [member]
  · simp [member]

theorem hammingDist_foldl_toggle (distinct : picked.Nodup) :
    hammingDist x.get (picked.foldl toggle x).get = picked.length := by
  rw [← List.toFinset_card_of_nodup distinct]
  unfold hammingDist
  congr 1
  ext v
  rw [Finset.mem_filter_univ, List.mem_toFinset, ne_comm]
  exact get_foldl_toggle_ne_iff distinct v

end Assignment

section Perturbed

variable {γ : Type} [Generator γ]

theorem perturb_of_sample {redraws : Nat} {fraction : Binary64} {x : Assignment n}
    {picked : List (Fin n)} {g g' : γ} (some_variable : 0 < n)
    (picks : sample redraws (changeCount fraction n) (Nat.min_le_right _ _) g = some (picked, g')) :
    perturb redraws fraction x g = some ((picked, picked.foldl Assignment.toggle x), g') := by
  unfold perturb
  rw [if_neg some_variable.ne']
  exact Draw.bind_eq_some_iff.mpr ⟨picked, g', picks, rfl⟩

/-- Whichever way the sample is drawn, no variable is in it twice, so that no toggle takes back
another. A share that is not a number counts as none, and every change has at least one variable. -/
theorem changes_of_sample {redraws : Nat} {fraction : Binary64} (x : Assignment n)
    {picked : List (Fin n)} {g g' : γ} (some_variable : 0 < n) (few : n < 500000)
    (picks : sample redraws (changeCount fraction n) (Nat.min_le_right _ _) g = some (picked, g')) :
    ∃ changed : Assignment n,
      perturb redraws fraction x g = some ((picked, changed), g') ∧
      picked.Nodup ∧
      (fraction.isNaN = true → picked.length = 1) ∧
      (fraction.isNaN = false →
        (clampFraction fraction).exact = max 0 (min 1 fraction.exact) ∧
        (clampFraction fraction * Binary64.ofNat n).IsFinite ∧
        picked.length = min n (max 1 ⌈(clampFraction fraction * Binary64.ofNat n).exact⌉₊)) ∧
      (∀ v, changed.get v ≠ x.get v ↔ v ∈ picked) ∧
      hammingDist x.get changed.get = picked.length := by
  obtain ⟨distinct, length_eq⟩ := Sample.distinct_of_sample picks
  have exactly : n < 0x20000000000000 := few.trans (by decide)
  refine ⟨_, perturb_of_sample some_variable picks, distinct, ?_, ?_,
    Assignment.get_foldl_toggle_ne_iff distinct, Assignment.hammingDist_foldl_toggle distinct⟩
  · intro number
    rw [length_eq]
    exact changeCount_of_isNaN number some_variable
  · intro number
    rw [length_eq]
    exact ⟨exact_clampFraction number, isFinite_clampFraction_mul number exactly,
      changeCount_eq number exactly⟩

theorem changes_of_sample_with_a_number_drawn_twice :
    let g : Scripted := ⟨#[0x10000000, 0x10000000], by decide, 0⟩
    let x : Assignment 4 := #v[true, false, true, false]
    let half : Binary64 := .ofBits 0x3fe0000000000000
    let picked : List (Fin 4) := [3, 0]
    0 < 4 ∧ 4 < 500000 ∧ ∃ g',
      sample 8 (changeCount half 4) (Nat.min_le_right _ _) g = some (picked, g') ∧
      ∃ changed : Assignment 4,
        perturb 8 half x g = some ((picked, changed), g') ∧
        picked.Nodup ∧
        (half.isNaN = true → picked.length = 1) ∧
        (half.isNaN = false →
          (clampFraction half).exact = max 0 (min 1 half.exact) ∧
          (clampFraction half * Binary64.ofNat 4).IsFinite ∧
          picked.length = min 4 (max 1 ⌈(clampFraction half * Binary64.ofNat 4).exact⌉₊)) ∧
        (∀ v, changed.get v ≠ x.get v ↔ v ∈ picked) ∧
        hammingDist x.get changed.get = picked.length := by
  intro g x half picked
  have reported : (sample 8 (changeCount half 4) (Nat.min_le_right _ _) g).map Prod.fst =
      some picked := by
    decide +kernel
  obtain ⟨⟨_, g'⟩, picks, rfl⟩ := Option.map_eq_some_iff.mp reported
  exact ⟨by decide, by decide, g', picks, changes_of_sample x (by decide) (by decide) picks⟩

end Perturbed

end BinaryQuadratic
