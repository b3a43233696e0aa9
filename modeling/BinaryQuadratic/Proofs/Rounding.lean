import Mathlib.Algebra.Group.Nat.Defs
import Mathlib.Data.Nat.Log
import BinaryQuadratic.Proofs.MachineNumbers

set_option autoImplicit false

/-! Rounding to double-precision numbers. It keeps the order of what is rounded and leaves a number
that needs no rounding as it is; a sum is the exact sum, rounded once. So adding a positive number
never makes a sum smaller. -/

namespace BinaryQuadratic.Binary64

section Quotient

variable {num num' den bound : Nat}

theorem roundQuotient_cases (num den : Nat) :
    (roundQuotient num den = num / den ∧ 2 * (num % den) ≤ den) ∨
      (roundQuotient num den = num / den + 1 ∧ den ≤ 2 * (num % den)) := by
  unfold roundQuotient
  dsimp only
  split
  · exact .inl ⟨rfl, by omega⟩
  · split
    · exact .inr ⟨rfl, by omega⟩
    · omega

theorem le_roundQuotient (positive : 0 < den) (above : bound * den ≤ num) :
    bound ≤ roundQuotient num den := by
  have low : bound ≤ num / den := (Nat.le_div_iff_mul_le positive).mpr above
  rcases roundQuotient_cases num den with ⟨same, _⟩ | ⟨same, _⟩
  · omega
  · omega

theorem roundQuotient_le (positive : 0 < den) (below : num ≤ bound * den) :
    roundQuotient num den ≤ bound := by
  have high : num / den ≤ bound := Nat.div_le_of_le_mul (by rwa [Nat.mul_comm])
  rcases roundQuotient_cases num den with ⟨same, _⟩ | ⟨same, up⟩
  · omega
  · -- Nothing but a remainder rounds up, so the quotient is below the bound.
    have split := Nat.div_add_mod num den
    have apart : num / den ≠ bound := by
      intro equal
      rw [equal, Nat.mul_comm] at split
      omega
    omega

theorem roundQuotient_mono (le : num ≤ num') : roundQuotient num den ≤ roundQuotient num' den := by
  have quotients : num / den ≤ num' / den := Nat.div_le_div_right le
  rcases Nat.lt_or_eq_of_le quotients with less | same
  · have left : roundQuotient num den ≤ num / den + 1 := by
      rcases roundQuotient_cases num den with ⟨low, _⟩ | ⟨high, _⟩ <;> omega
    have right : num' / den ≤ roundQuotient num' den := by
      rcases roundQuotient_cases num' den with ⟨low, _⟩ | ⟨high, _⟩ <;> omega
    omega
  · have remainders : num % den ≤ num' % den := by
      have split := Nat.div_add_mod num den
      have split' := Nat.div_add_mod num' den
      rw [same] at split
      omega
    unfold roundQuotient
    rw [same]
    dsimp only
    split_ifs <;> omega

theorem roundQuotient_mono_div {den' : Nat} (positive : 0 < den) (positive' : 0 < den')
    (le : num * den' ≤ num' * den) : roundQuotient num den ≤ roundQuotient num' den' := by
  rw [← roundQuotient_mul_left den' num den positive',
    ← roundQuotient_mul_left den num' den' positive, Nat.mul_comm den' den]
  apply roundQuotient_mono
  rwa [Nat.mul_comm den' num, Nat.mul_comm den num']

theorem div_le_div_of_mul_le {den' : Nat} (positive : 0 < den) (positive' : 0 < den')
    (le : num * den' ≤ num' * den) : num / den ≤ num' / den' := by
  apply (Nat.le_div_iff_mul_le positive').mpr
  apply Nat.le_of_mul_le_mul_right _ positive
  calc num / den * den' * den
      = num / den * den * den' := Nat.mul_right_comm _ _ _
    _ ≤ num * den' := Nat.mul_le_mul_right den' (Nat.div_mul_le_self num den)
    _ ≤ num' * den := le

end Quotient

/-! ### The nearest magnitude -/

section Magnitude

variable {num num' den den' magnitude : Nat}

theorem nearest_one (num : Nat) :
    nearest num 1 =
      assembled (num.log2 - 52) (roundQuotient num (1 <<< (num.log2 - 52))) := by
  unfold nearest
  rw [Nat.div_one]

theorem shiftLeft_pos (positive : 0 < den) (scale : Nat) : 0 < den <<< scale := by
  rw [Nat.shiftLeft_eq]
  exact Nat.mul_pos positive (Nat.two_pow_pos scale)

/-- A significand has 53 digits at the most. -/
theorem roundQuotient_le_greatest (num : Nat) (positive : 0 < den) :
    roundQuotient num (den <<< ((num / den).log2 - 52)) ≤ 0x20000000000000 := by
  apply roundQuotient_le (shiftLeft_pos positive _)
  generalize digits : (num / den).log2 = log
  have quotient : num / den < 2 ^ (log + 1) := by
    rw [← digits]
    exact Nat.lt_log2_self
  have more : 2 ^ (log + 1) ≤ 2 ^ (53 + (log - 52)) := Nat.pow_le_pow_right (by decide) (by omega)
  have bounded : num < 2 ^ (log + 1) * den := (Nat.div_lt_iff_lt_mul positive).mp quotient
  calc num ≤ 2 ^ (53 + (log - 52)) * den := bounded.le.trans (Nat.mul_le_mul_right den more)
    _ = 0x20000000000000 * den <<< (log - 52) := by
      rw [Nat.pow_add, Nat.shiftLeft_eq, Nat.mul_comm den, Nat.mul_assoc]

/-- Above the lowest scale it has no fewer. -/
theorem least_le_roundQuotient (positive : 0 < den) (scaled : 0 < (num / den).log2 - 52) :
    0x10000000000000 ≤ roundQuotient num (den <<< ((num / den).log2 - 52)) := by
  apply le_roundQuotient (shiftLeft_pos positive _)
  have some_quotient : num / den ≠ 0 := by
    intro zero
    rw [zero, Nat.log2_zero] at scaled
    omega
  have quotient : 2 ^ (num / den).log2 ≤ num / den := Nat.log2_self_le some_quotient
  have split : (num / den).log2 = 52 + ((num / den).log2 - 52) := by omega
  rw [split, Nat.pow_add] at quotient
  calc 0x10000000000000 * den <<< ((num / den).log2 - 52)
      = 2 ^ 52 * 2 ^ ((num / den).log2 - 52) * den := by
        rw [Nat.shiftLeft_eq, Nat.mul_comm den, Nat.mul_assoc]
    _ ≤ num := (Nat.le_div_iff_mul_le positive).mp quotient

theorem nearest_mono (positive : 0 < den) (positive' : 0 < den') (le : num * den' ≤ num' * den) :
    nearest num den ≤ nearest num' den' := by
  have quotients : num / den ≤ num' / den' := div_le_div_of_mul_le positive positive' le
  have scales : (num / den).log2 ≤ (num' / den').log2 := by
    rcases Nat.eq_zero_or_pos (num / den) with zero | some_quotient
    · rw [zero, Nat.log2_zero]
      exact Nat.zero_le _
    · have digits : 2 ^ (num / den).log2 ≤ num / den := Nat.log2_self_le some_quotient.ne'
      exact (Nat.le_log2 (by omega)).mpr (digits.trans quotients)
  unfold nearest assembled
  refine Nat.le_min_of_le_of_le ((Nat.min_le_left _ _).trans ?_) (Nat.min_le_right _ _)
  rcases Nat.lt_or_eq_of_le (Nat.sub_le_sub_right scales 52) with higher | same
  · -- From one scale to the next the significand starts again at half its greatest value.
    have low := roundQuotient_le_greatest num positive
    have scaled : 0 < (num' / den').log2 - 52 := by omega
    have high := least_le_roundQuotient positive' scaled
    omega
  · rw [same]
    apply Nat.add_le_add_left
    apply roundQuotient_mono_div (shiftLeft_pos positive _) (shiftLeft_pos positive' _)
    rw [Nat.shiftLeft_eq, Nat.shiftLeft_eq, ← Nat.mul_assoc, ← Nat.mul_assoc]
    exact Nat.mul_le_mul_right _ le

theorem units_of_lt (subnormal : magnitude < 0x10000000000000) : units magnitude = magnitude := by
  have quotient : magnitude / 0x10000000000000 = 0 := Nat.div_eq_of_lt subnormal
  unfold units significand place
  rw [quotient, if_pos rfl]
  rfl

theorem roundQuotient_mul (num : Nat) {den : Nat} (positive : 0 < den) :
    roundQuotient (num * den) den = num :=
  Nat.le_antisymm (roundQuotient_le positive le_rfl) (le_roundQuotient positive le_rfl)

/-- A magnitude is the one nearest to its own value. -/
theorem nearest_units (bounded : magnitude ≤ infinite) : nearest (units magnitude) 1 = magnitude := by
  unfold infinite at bounded
  rw [nearest_one]
  rcases Nat.lt_or_ge magnitude 0x10000000000000 with subnormal | normal
  · have scale : magnitude.log2 - 52 = 0 := by
      rcases Nat.eq_zero_or_pos magnitude with zero | positive
      · rw [zero, Nat.log2_zero]
      · have few : magnitude.log2 < 53 := (Nat.log2_lt positive.ne').mpr (by omega)
        omega
    rw [units_of_lt subnormal, scale]
    have whole := roundQuotient_mul magnitude Nat.one_pos
    rw [Nat.mul_one] at whole
    unfold assembled infinite
    change min (0 * _ + roundQuotient magnitude 1) _ = magnitude
    rw [whole]
    omega
  · have quotient : magnitude / 0x10000000000000 ≠ 0 := by omega
    let fraction := magnitude % 0x10000000000000 + 0x10000000000000
    let scale := magnitude / 0x10000000000000 - 1
    have value : units magnitude = fraction <<< scale := by
      unfold units significand place
      rw [if_neg quotient]
    have digits : fraction.log2 = 52 := (Nat.log2_eq_iff (by omega)).mpr (by omega)
    have scaled : (units magnitude).log2 - 52 = scale := by
      rw [value, log2_shiftLeft fraction scale (by omega), digits]
      omega
    rw [scaled, value, Nat.shiftLeft_eq, Nat.one_shiftLeft,
      roundQuotient_mul fraction (Nat.two_pow_pos scale)]
    unfold assembled infinite
    omega

theorem units_pos (positive : 0 < magnitude) : 0 < units magnitude := by
  have significand_pos : 0 < significand magnitude := by
    unfold significand
    split <;> omega
  unfold units
  rw [Nat.shiftLeft_eq]
  exact Nat.mul_pos significand_pos (Nat.two_pow_pos _)

theorem significand_shiftLeft {common : Nat} (low : common ≤ place magnitude) :
    significand magnitude <<< (place magnitude - common) * 2 ^ common = units magnitude := by
  unfold units
  rw [Nat.shiftLeft_eq, Nat.shiftLeft_eq, Nat.mul_assoc, ← Nat.pow_add, Nat.sub_add_cancel low]

end Magnitude

/-! ### Sums -/

variable {a b c : Binary64}

theorem roundedAt_eq_rounded (negative : Bool) (place : Nat) {num : Nat} (positive : 0 < num) :
    roundedAt negative place num = rounded negative (num * 2 ^ place) 1 := by
  have same := nearestAt_eq_nearest place num positive
  rw [Nat.shiftLeft_eq] at same
  simp only [roundedAt, rounded, same]

/-- The exact sum, rounded once. -/
theorem addFinite_eq (some_left : 0 < a.magnitude) :
    addFinite a b =
      if a.negative = b.negative then
        rounded a.negative (units a.magnitude + units b.magnitude) 1
      else if units b.magnitude < units a.magnitude then
        rounded a.negative (units a.magnitude - units b.magnitude) 1
      else if units a.magnitude < units b.magnitude then
        rounded b.negative (units b.magnitude - units a.magnitude) 1
      else zero false := by
  let common := min (place a.magnitude) (place b.magnitude)
  let x := significand a.magnitude <<< (place a.magnitude - common)
  let y := significand b.magnitude <<< (place b.magnitude - common)
  have x_eq : units a.magnitude = x * 2 ^ common :=
    (significand_shiftLeft (Nat.min_le_left _ _)).symm
  have y_eq : units b.magnitude = y * 2 ^ common :=
    (significand_shiftLeft (Nat.min_le_right _ _)).symm
  have x_pos : 0 < x := by
    have positive := units_pos some_left
    rw [x_eq] at positive
    exact Nat.pos_of_mul_pos_right positive
  have less_iff : ∀ u v : Nat, (u < v) = (u * 2 ^ common < v * 2 ^ common) := fun u v =>
    propext (Nat.mul_lt_mul_right (Nat.two_pow_pos common)).symm
  rw [x_eq, y_eq, ← Nat.add_mul, ← Nat.sub_mul, ← Nat.sub_mul]
  refine ite_congr rfl (fun _ => roundedAt_eq_rounded _ _ (Nat.add_pos_left x_pos y)) fun _ => ?_
  refine ite_congr (less_iff y x) (fun less => ?_) fun _ => ?_
  · rw [← less_iff] at less
    exact roundedAt_eq_rounded _ _ (Nat.sub_pos_of_lt less)
  · refine ite_congr (less_iff x y) (fun less => ?_) fun _ => rfl
    rw [← less_iff] at less
    exact roundedAt_eq_rounded _ _ (Nat.sub_pos_of_lt less)

theorem pos_iff : 0 < c ↔ c.isNaN = false ∧ c.negative = false ∧ 0 < c.magnitude := by
  have zero_number : (0 : Binary64).isNaN = false := rfl
  have zero_ordinal : (0 : Binary64).ordinal = 0 := rfl
  rw [lt_iff, zero_number, zero_ordinal]
  unfold ordinal
  cases c.negative with
  | false => simp
  | true => simp

/-- The magnitude of a rounded number lies on the same side as what is rounded. -/
theorem magnitude_le_rounded (negative : Bool) {magnitude num : Nat} (bounded : magnitude ≤ infinite)
    (le : units magnitude ≤ num) : magnitude ≤ (rounded negative num 1).magnitude := by
  have held := nearest_mono Nat.one_pos Nat.one_pos (Nat.mul_le_mul_right 1 le)
  rw [nearest_units bounded] at held
  exact held

theorem rounded_le_magnitude (negative : Bool) {magnitude num : Nat} (bounded : magnitude ≤ infinite)
    (le : num ≤ units magnitude) : (rounded negative num 1).magnitude ≤ magnitude := by
  have held := nearest_mono Nat.one_pos Nat.one_pos (Nat.mul_le_mul_right 1 le)
  rw [nearest_units bounded] at held
  exact held

theorem ordinal_of_positive (positive : a.negative = false) : a.ordinal = a.magnitude := by
  unfold ordinal
  rw [positive]
  rfl

theorem ordinal_of_negative (negative : a.negative = true) : a.ordinal = -a.magnitude := by
  unfold ordinal
  rw [negative]
  rfl

theorem negative_rounded (negative : Bool) (num den : Nat) :
    (rounded negative num den).negative = negative := rfl

theorem ordinal_le_addFinite (finite : a.IsFinite) (some_left : 0 < a.magnitude)
    (positive : b.negative = false) : a.ordinal ≤ (addFinite a b).ordinal := by
  have bounded : a.magnitude ≤ infinite := Nat.le_of_lt finite
  rw [addFinite_eq some_left, positive]
  cases sign : a.negative with
  | false =>
      have grown := magnitude_le_rounded false bounded (Nat.le_add_right _ (units b.magnitude))
      rw [if_pos rfl, ordinal_of_positive sign, ordinal_of_positive (negative_rounded ..)]
      exact Int.ofNat_le.mpr grown
  | true =>
      rw [if_neg (by decide), ordinal_of_negative sign]
      split
      · have shrunk := rounded_le_magnitude true bounded (Nat.sub_le _ (units b.magnitude))
        rw [ordinal_of_negative (negative_rounded ..)]
        exact Int.neg_le_neg (Int.ofNat_le.mpr shrunk)
      · split
        · rw [ordinal_of_positive (negative_rounded ..)]
          omega
        · rw [ordinal_of_positive (a := zero false) rfl]
          omega

theorem isNaN_eq_false_iff : a.isNaN = false ↔ a.magnitude ≤ infinite := by
  unfold isNaN
  rw [decide_eq_false_iff_not, Nat.not_lt]

theorem ordinal_le_magnitude (a : Binary64) : a.ordinal ≤ a.magnitude := by
  cases sign : a.negative with
  | false => exact (ordinal_of_positive sign).le
  | true =>
      rw [ordinal_of_negative sign]
      omega

theorem eq_infinity (infinite : a.isInfinite = true) : a = infinity a.negative := by
  rcases a with ⟨negative, magnitude, bounded⟩
  cases of_decide_eq_true infinite
  rfl

/-- The sum with a positive number is a number and not smaller, whatever rounding does to it, unless
it starts from the negative infinity. -/
theorem le_add_of_pos (number : a.isNaN = false) (above : a ≠ infinity true) (positive : 0 < c) :
    a ≤ a + c := by
  obtain ⟨c_number, c_sign, some_c⟩ := pos_iff.mp positive
  have grown : (a + c).isNaN = false ∧ a.ordinal ≤ (a + c).ordinal := by
    change (add a c).isNaN = false ∧ a.ordinal ≤ (add a c).ordinal
    unfold add
    rw [if_neg (ne_true_of_eq_false number), if_neg (ne_true_of_eq_false c_number)]
    cases left_end : a.isInfinite with
    | true =>
        have a_sign : a.negative = false := by
          cases sign : a.negative with
          | false => rfl
          | true =>
              have lowest := eq_infinity left_end
              rw [sign] at lowest
              exact absurd lowest above
        rw [a_sign, c_sign, if_pos rfl, if_neg (by simp)]
        exact ⟨number, le_rfl⟩
    | false =>
        rw [if_neg Bool.false_ne_true]
        cases right_end : c.isInfinite with
        | true =>
            have greatest : c.magnitude = infinite := of_decide_eq_true right_end
            rw [if_pos rfl, ordinal_of_positive c_sign, greatest]
            refine ⟨c_number, (ordinal_le_magnitude a).trans ?_⟩
            exact Int.ofNat_le.mpr (isNaN_eq_false_iff.mp number)
        | false =>
            rw [if_neg Bool.false_ne_true]
            by_cases zero : a.magnitude = 0
            · rw [if_pos zero, if_neg some_c.ne', ordinal_of_positive c_sign]
              refine ⟨c_number, (ordinal_le_magnitude a).trans ?_⟩
              rw [zero]
              exact Int.ofNat_le.mpr some_c.le
            · have finite : a.IsFinite :=
                Nat.lt_of_le_of_ne (isNaN_eq_false_iff.mp number) (of_decide_eq_false left_end)
              rw [if_neg zero, if_neg some_c.ne']
              exact ⟨isNaN_addFinite a c,
                ordinal_le_addFinite finite (Nat.pos_of_ne_zero zero) c_sign⟩
  exact le_iff.mpr ⟨number, grown.1, grown.2⟩

theorem lt_of_lt_of_le (first : a < b) (second : b ≤ c) : a < c := by
  obtain ⟨a_number, _, before⟩ := lt_iff.mp first
  obtain ⟨_, c_number, after⟩ := le_iff.mp second
  exact lt_iff.mpr ⟨a_number, c_number, before.trans_le after⟩

/-- What is below a number stays below it when something positive is added. -/
theorem lt_add_of_lt_of_pos (below : a < b) (positive : 0 < c) : a < b + c := by
  obtain ⟨a_number, number, less⟩ := lt_iff.mp below
  refine lt_of_lt_of_le below (le_add_of_pos number ?_ positive)
  -- Nothing is below the negative infinity.
  intro lowest
  have floor : (infinity true).ordinal = -infinite := rfl
  have bounded : a.magnitude ≤ infinite := isNaN_eq_false_iff.mp a_number
  rw [lowest, floor] at less
  cases sign : a.negative with
  | false =>
      rw [ordinal_of_positive sign] at less
      omega
  | true =>
      rw [ordinal_of_negative sign] at less
      omega

end BinaryQuadratic.Binary64
