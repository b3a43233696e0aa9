import Mathlib.Data.Rat.Floor
import BinaryQuadratic.Proofs.Shares

set_option autoImplicit false

/-! The rational numbers that doubles stand for. The comparisons of doubles are those of their exact
values, and the whole number that a double is rounded up to is the ceiling of its exact value. -/

namespace BinaryQuadratic.Binary64

variable {a b : Binary64}

/-- The infinities count as the powers of two next to the greatest finite numbers. -/
def exact (a : Binary64) : ℚ := a.signedUnits / 2 ^ onePlace

theorem two_pow_onePlace_pos : (0 : ℚ) < 2 ^ onePlace := pow_pos rfl onePlace

theorem units_le_units_iff {magnitude magnitude' : Nat} (bounded : magnitude ≤ infinite)
    (bounded' : magnitude' ≤ infinite) :
    units magnitude ≤ units magnitude' ↔ magnitude ≤ magnitude' := by
  constructor
  · intro le
    have nearer := nearest_mono Nat.one_pos Nat.one_pos (Nat.mul_le_mul_right 1 le)
    rwa [nearest_units bounded, nearest_units bounded'] at nearer
  · exact units_le_units bounded'

theorem units_eq_zero_iff (magnitude : Nat) : units magnitude = 0 ↔ magnitude = 0 := by
  constructor
  · intro zero
    rcases Nat.eq_zero_or_pos magnitude with none | positive
    · exact none
    · exact absurd zero (units_pos positive).ne'
  · rintro rfl
    rfl

theorem signedUnits_le_iff (a_number : a.isNaN = false) (b_number : b.isNaN = false) :
    a.signedUnits ≤ b.signedUnits ↔ a.ordinal ≤ b.ordinal := by
  have a_bounded := isNaN_eq_false_iff.mp a_number
  have b_bounded := isNaN_eq_false_iff.mp b_number
  have up := units_le_units_iff a_bounded b_bounded
  have down := units_le_units_iff b_bounded a_bounded
  have a_zero := units_eq_zero_iff a.magnitude
  have b_zero := units_eq_zero_iff b.magnitude
  unfold signedUnits ordinal
  cases a.negative <;> cases b.negative
  all_goals
    simp only [Bool.false_eq_true, if_true, if_false]
    omega

theorem exact_le_iff (a_number : a.isNaN = false) (b_number : b.isNaN = false) :
    a.exact ≤ b.exact ↔ a.ordinal ≤ b.ordinal := by
  unfold exact
  rw [div_le_div_iff_of_pos_right two_pow_onePlace_pos, Int.cast_le,
    signedUnits_le_iff a_number b_number]

theorem lt_iff_exact_lt (a_number : a.isNaN = false) (b_number : b.isNaN = false) :
    a < b ↔ a.exact < b.exact := by
  have less_iff : a.exact < b.exact ↔ a.ordinal < b.ordinal := by
    rw [← not_le, exact_le_iff b_number a_number, Int.not_le]
  rw [lt_iff, less_iff]
  constructor
  · intro less
    exact less.2.2
  · intro less
    exact ⟨a_number, b_number, less⟩

theorem exact_ofNat {count : Nat} (few : count < 0x20000000000000) : (ofNat count).exact = count := by
  have value : (ofNat count).signedUnits = (count <<< onePlace : Nat) := by
    rw [← units_ofNat few]
    rfl
  unfold exact
  rw [value, Nat.shiftLeft_eq, Int.cast_natCast, Nat.cast_mul, Nat.cast_pow]
  exact mul_div_cancel_right₀ _ two_pow_onePlace_pos.ne'

theorem exact_zero : (0 : Binary64).exact = 0 := by
  change ((0 : ℤ) : ℚ) / 2 ^ onePlace = 0
  rw [Int.cast_zero, zero_div]

theorem exact_one : (1 : Binary64).exact = 1 := by
  rw [← Nat.cast_one]
  exact exact_ofNat (by decide)

theorem ceilNat_of_isNaN (number : a.isNaN = true) : a.ceilNat = 0 := by
  unfold ceilNat
  rw [number]
  rfl

/-- Adding one less than the divisor makes the quotient of a shift round up. -/
theorem shiftRight_eq_ceil (value place : Nat) :
    (value + (1 <<< place - 1)) >>> place = ⌈(value : ℚ) / 2 ^ place⌉₊ := by
  have unit_pos := Nat.two_pow_pos place
  have unit_eq : (2 : ℚ) ^ place = (2 ^ place : Nat) := (Nat.cast_pow 2 place).symm
  have quotient_pos : (0 : ℚ) < (2 ^ place : Nat) := Nat.cast_pos.mpr unit_pos
  rw [Nat.shiftRight_eq_div_pow, Nat.one_shiftLeft, unit_eq]
  apply eq_of_forall_ge_iff
  intro bound
  rw [Nat.ceil_le, div_le_iff₀ quotient_pos, ← Nat.cast_mul, Nat.cast_le, ← Nat.lt_succ_iff,
    Nat.div_lt_iff_lt_mul unit_pos, Nat.succ_mul]
  omega

theorem ceilNat_eq_ceil (number : a.isNaN = false) : a.ceilNat = ⌈a.exact⌉₊ := by
  unfold ceilNat exact signedUnits
  rw [number, Bool.false_or]
  cases a.negative with
  | true =>
      rw [if_pos rfl, if_pos rfl]
      symm
      apply Nat.ceil_eq_zero.mpr
      apply div_nonpos_of_nonpos_of_nonneg _ two_pow_onePlace_pos.le
      exact Int.cast_nonpos.mpr (Int.neg_nonpos_of_nonneg (Int.natCast_nonneg _))
  | false =>
      rw [if_neg Bool.false_ne_true, if_neg Bool.false_ne_true]
      exact shiftRight_eq_ceil (units a.magnitude) onePlace

end BinaryQuadratic.Binary64
