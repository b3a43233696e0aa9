import BinaryQuadratic.Proofs.Rounding

set_option autoImplicit false

/-! Shares of counts in double precision. A count below `2 ^ 53` is a double itself, so the share that
one count has in another is their exact quotient, rounded once. What a share leaves of the whole is
rounded once more. Neither rounding changes the order of two shares. -/

namespace BinaryQuadratic.Binary64

variable {a b : Binary64}

theorem not_le_of_lt (less : a < b) : ¬b ≤ a := by
  intro le
  have before := (lt_iff.mp less).2.2
  have after := (le_iff.mp le).2.2
  omega

theorem eq_of_magnitude_eq (signs : a.negative = b.negative)
    (magnitudes : a.magnitude = b.magnitude) : a = b := by
  rcases a with ⟨_, _, _⟩
  rcases b with ⟨_, _, _⟩
  cases signs
  cases magnitudes
  rfl

theorem units_le_units {magnitude magnitude' : Nat} (bounded : magnitude' ≤ infinite)
    (le : magnitude ≤ magnitude') : units magnitude ≤ units magnitude' := by
  rcases Nat.lt_or_ge (units magnitude') (units magnitude) with less | done
  · -- The rounding of the two values would put the magnitudes the other way round.
    have back := nearest_mono Nat.one_pos Nat.one_pos (Nat.mul_le_mul_right 1 less.le)
    rw [nearest_units bounded, nearest_units (le.trans bounded)] at back
    rw [Nat.le_antisymm le back]
  · exact done

theorem units_of_significand (scale : Nat) {fraction : Nat} (least : 0x10000000000000 ≤ fraction)
    (few : fraction < 0x20000000000000) :
    units (scale * 0x10000000000000 + fraction) = fraction <<< scale := by
  have quotient : (scale * 0x10000000000000 + fraction) / 0x10000000000000 = scale + 1 := by omega
  have remainder : (scale * 0x10000000000000 + fraction) % 0x10000000000000 =
      fraction - 0x10000000000000 := by
    omega
  unfold units significand place
  rw [quotient, remainder, if_neg (Nat.succ_ne_zero scale), Nat.sub_add_cancel least,
    Nat.add_sub_cancel]

/-- A count with no more digits than a significand needs no rounding. -/
theorem units_ofNat {count : Nat} (few : count < 0x20000000000000) :
    units (ofNat count).magnitude = count <<< onePlace := by
  rcases Nat.eq_zero_or_pos count with rfl | positive
  · decide +kernel
  · have digits : count.log2 < 53 := (Nat.log2_lt positive.ne').mpr few
    have low : 2 ^ count.log2 ≤ count := Nat.log2_self_le positive.ne'
    have high : count < 2 ^ (count.log2 + 1) := Nat.lt_log2_self
    generalize count.log2 = log at digits low high
    have least : 0x10000000000000 ≤ count * 2 ^ (52 - log) := by
      calc 0x10000000000000 = 2 ^ log * 2 ^ (52 - log) := by
            rw [← Nat.pow_add, Nat.add_sub_cancel' (by omega)]
        _ ≤ count * 2 ^ (52 - log) := Nat.mul_le_mul_right _ low
    have greatest : count * 2 ^ (52 - log) < 0x20000000000000 := by
      calc count * 2 ^ (52 - log)
          < 2 ^ (log + 1) * 2 ^ (52 - log) := Nat.mul_lt_mul_of_pos_right high (Nat.two_pow_pos _)
        _ = 0x20000000000000 := by
            rw [← Nat.pow_add, Nat.add_right_comm, Nat.add_sub_cancel' (by omega)]
    have total : 52 - log + (log + 1022) = onePlace := by
      unfold onePlace
      omega
    have value : units ((log + 1022) * 0x10000000000000 + count * 2 ^ (52 - log)) =
        count <<< onePlace := by
      rw [units_of_significand (log + 1022) least greatest, Nat.shiftLeft_eq, Nat.mul_assoc,
        ← Nat.pow_add, total, ← Nat.shiftLeft_eq]
    change units (nearest (count <<< onePlace) 1) = _
    rw [← value, nearest_units]
    unfold infinite
    omega

theorem isFinite_ofNat {count : Nat} (few : count < 0x20000000000000) : (ofNat count).IsFinite := by
  have greatest : nearest (0x20000000000000 <<< onePlace) 1 < infinite := by decide +kernel
  refine Nat.lt_of_le_of_lt ?_ greatest
  apply nearest_mono Nat.one_pos Nat.one_pos
  rw [Nat.shiftLeft_eq, Nat.shiftLeft_eq]
  exact Nat.mul_le_mul_right 1 (Nat.mul_le_mul_right _ few.le)

/-- A positive number is at least one, so it does not round to zero. -/
theorem magnitude_ofNat_pos {count : Nat} (positive : 0 < count) : 0 < (ofNat count).magnitude := by
  change 0 < assembled _ _
  have large : 1074 ≤ (count <<< onePlace / 1).log2 := by
    rw [Nat.div_one, log2_shiftLeft count onePlace positive]
    exact Nat.le_add_left onePlace _
  unfold assembled
  apply Nat.lt_min.mpr
  constructor
  · omega
  · decide

section Share

variable {part whole part' whole' : Nat}

theorem negative_ofFraction (negative : Bool) (part whole : Nat) :
    (ofFraction negative part whole).negative = negative := rfl

theorem magnitude_ofFraction_le (positive : 0 < whole) (positive' : 0 < whole')
    (le : part * whole' ≤ part' * whole) :
    (ofFraction false part whole).magnitude ≤ (ofFraction false part' whole').magnitude := by
  apply nearest_mono positive positive'
  rw [Nat.shiftLeft_eq, Nat.shiftLeft_eq, Nat.mul_right_comm part, Nat.mul_right_comm part']
  exact Nat.mul_le_mul_right _ le

/-- The quotient of two counts is their fraction, rounded once. -/
theorem ofNat_div_ofNat (few_part : part < 0x20000000000000) (few_whole : whole < 0x20000000000000)
    (positive : 0 < whole) : ofNat part / ofNat whole = ofFraction false part whole := by
  have finite_part := isFinite_ofNat few_part
  have finite_whole := isFinite_ofNat few_whole
  have some_whole : (ofNat whole).magnitude ≠ 0 := (magnitude_ofNat_pos positive).ne'
  have quotient : ofNat part / ofNat whole =
      ofFraction false (units (ofNat part).magnitude) (units (ofNat whole).magnitude) := by
    change div (ofNat part) (ofNat whole) = _
    unfold div
    simp only [finite_part.isNaN_eq, finite_whole.isNaN_eq, finite_part.isInfinite_eq,
      finite_whole.isInfinite_eq, Bool.false_eq_true, if_false, if_neg some_whole]
    rfl
  rw [quotient, units_ofNat few_part, units_ofNat few_whole]
  have shift_pos : 0 < whole <<< onePlace := shiftLeft_pos positive onePlace
  have same : part <<< onePlace * whole = part * whole <<< onePlace := by
    rw [Nat.shiftLeft_eq, Nat.shiftLeft_eq, Nat.mul_right_comm, Nat.mul_assoc]
  apply eq_of_magnitude_eq
  · rw [negative_ofFraction, negative_ofFraction]
  apply Nat.le_antisymm
  · exact magnitude_ofFraction_le shift_pos positive same.le
  · exact magnitude_ofFraction_le positive shift_pos same.ge

end Share

theorem one_sub_eq (positive : a.negative = false)
    (le_one : a.magnitude ≤ (1 : Binary64).magnitude) :
    1 - a = rounded false (units (1 : Binary64).magnitude - units a.magnitude) 1 := by
  have one_finite : (1 : Binary64).IsFinite := by decide +kernel
  have finite : (-a).IsFinite := Nat.lt_of_le_of_lt le_one one_finite
  have some_one : 0 < (1 : Binary64).magnitude := magnitude_ofNat_pos Nat.one_pos
  have turned : (-a).negative = true := by
    rw [negative_neg, positive]
    rfl
  have sum : 1 - a = if (-a).magnitude = 0 then 1 else addFinite 1 (-a) := by
    change add 1 (-a) = _
    unfold add
    simp only [one_finite.isNaN_eq, finite.isNaN_eq, one_finite.isInfinite_eq, finite.isInfinite_eq,
      Bool.false_eq_true, if_false, if_neg some_one.ne']
  rw [sum, magnitude_neg]
  by_cases zero : a.magnitude = 0
  · rw [if_pos zero, zero]
    decide +kernel
  · have values : units a.magnitude ≤ units (1 : Binary64).magnitude :=
      units_le_units one_finite.le le_one
    rw [if_neg zero, addFinite_eq some_one, turned, magnitude_neg]
    rw [if_neg (by decide)]
    rcases Nat.lt_or_eq_of_le values with less | same
    · rw [if_pos less]
      rfl
    · rw [same, if_neg (Nat.lt_irrefl _), if_neg (Nat.lt_irrefl _), Nat.sub_self]
      decide +kernel

theorem one_sub_le_one_sub (a_positive : a.negative = false) (b_positive : b.negative = false)
    (le : a.magnitude ≤ b.magnitude) (le_one : b.magnitude ≤ (1 : Binary64).magnitude) :
    1 - b ≤ 1 - a := by
  have b_bounded : b.magnitude ≤ infinite := le_one.trans (by decide +kernel)
  have values : units a.magnitude ≤ units b.magnitude := units_le_units b_bounded le
  rw [one_sub_eq a_positive (le.trans le_one), one_sub_eq b_positive le_one, le_iff]
  refine ⟨isNaN_eq_false_iff.mpr (Nat.min_le_right _ _),
    isNaN_eq_false_iff.mpr (Nat.min_le_right _ _), ?_⟩
  rw [ordinal_of_positive (negative_rounded ..), ordinal_of_positive (negative_rounded ..)]
  apply Int.ofNat_le.mpr
  apply nearest_mono Nat.one_pos Nat.one_pos
  exact Nat.mul_le_mul_right 1 (Nat.sub_le_sub_left values _)

end BinaryQuadratic.Binary64
