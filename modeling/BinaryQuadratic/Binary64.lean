import BinaryQuadratic.Coefficient

set_option autoImplicit false

/-! Double-precision numbers by their fields. A finite number is a whole multiple of the least
positive one, so a sum is an exact integer that is rounded once, and every other operation is an
exact quotient that is rounded once. -/

namespace BinaryQuadratic

/-- A sign and a 63-bit magnitude, the exponent and fraction fields read as one number. -/
structure Binary64 where
  negative : Bool
  magnitude : Nat
  magnitude_lt : magnitude < 0x8000000000000000
deriving DecidableEq

namespace Binary64

/-- The magnitude of the infinities; every greater one is not a number. -/
def infinite : Nat := 0x7ff0000000000000

def isNaN (x : Binary64) : Bool := infinite < x.magnitude

def isInfinite (x : Binary64) : Bool := x.magnitude = infinite

def zero (negative : Bool) : Binary64 := ⟨negative, 0, by decide⟩

def infinity (negative : Bool) : Binary64 := ⟨negative, infinite, by decide⟩

def quietNaN (negative : Bool) : Binary64 := ⟨negative, infinite + 0x8000000000000, by decide⟩

def ofBits (bits : UInt64) : Binary64 :=
  ⟨decide (0x8000000000000000 ≤ bits), (bits &&& 0x7fffffffffffffff).toNat, by
    have := @Nat.and_le_right bits.toNat 0x7fffffffffffffff
    simp only [UInt64.toNat_and, UInt64.reduceToNat]
    omega⟩

def toBits (x : Binary64) : UInt64 :=
  (if x.negative then 0x8000000000000000 else 0) ||| x.magnitude.toUInt64

/-! ### Exact values and rounding

A finite number is `significand · 2 ^ place` least positive numbers. -/

def significand (magnitude : Nat) : Nat :=
  if magnitude / 0x10000000000000 = 0 then magnitude
  else magnitude % 0x10000000000000 + 0x10000000000000

def place (magnitude : Nat) : Nat := magnitude / 0x10000000000000 - 1

/-- The value of a finite magnitude, counted in least positive numbers. -/
def units (magnitude : Nat) : Nat := significand magnitude <<< place magnitude

def signedUnits (x : Binary64) : Int :=
  if x.negative then -(units x.magnitude) else units x.magnitude

/-- The whole number nearest to `num / den`, the even one of two. -/
def roundQuotient (num den : Nat) : Nat :=
  let low := num / den
  let twice := 2 * (num % den)
  if twice < den then low else if den < twice then low + 1 else low + low % 2

/-- The magnitude whose fraction field begins at the place `scale`. A significand that rounds up to
the next power of two moves into the next binade, or out of the last one, by the addition. -/
def assembled (scale significand : Nat) : Nat := min (scale * 0x10000000000000 + significand) infinite

/-- The magnitude nearest to `num / den` least positive numbers. -/
def nearest (num den : Nat) : Nat :=
  let scale := (num / den).log2 - 52
  assembled scale (roundQuotient num (den <<< scale))

/-- The magnitude nearest to `num · 2 ^ place` least positive numbers, for a positive `num`. -/
def nearestAt (place num : Nat) : Nat :=
  let scale := num.log2 + place - 52
  assembled scale (roundQuotient (num <<< (place - scale)) (1 <<< (scale - place)))

theorem roundQuotient_mul_left (factor num den : Nat) (positive : 0 < factor) :
    roundQuotient (factor * num) (factor * den) = roundQuotient num den := by
  have scaled : 2 * (factor * (num % den)) = factor * (2 * (num % den)) := Nat.mul_left_comm ..
  simp only [roundQuotient, Nat.mul_div_mul_left _ _ positive, Nat.mul_mod_mul_left, scaled,
    Nat.mul_lt_mul_left positive]

theorem log2_shiftLeft (num place : Nat) (positive : 0 < num) :
    (num <<< place).log2 = num.log2 + place := by
  rw [Nat.shiftLeft_eq, Nat.log2_eq_iff (Nat.mul_ne_zero (Nat.ne_of_gt positive) (Nat.ne_of_gt (Nat.pow_pos (by decide))))]
  have bounds := (Nat.log2_eq_iff (Nat.ne_of_gt positive)).mp rfl
  rw [Nat.pow_add, Nat.add_right_comm, Nat.pow_add]
  exact ⟨Nat.mul_le_mul_right _ bounds.1, Nat.mul_lt_mul_of_pos_right bounds.2 (Nat.pow_pos (by decide))⟩

theorem nearestAt_eq_nearest (place num : Nat) (positive : 0 < num) :
    nearestAt place num = nearest (num <<< place) 1 := by
  have same : (num <<< place / 1).log2 - 52 = num.log2 + place - 52 := by
    rw [Nat.div_one, log2_shiftLeft num place positive]
  simp only [nearestAt, nearest, same]
  generalize num.log2 + place - 52 = scale
  congr 1
  have common : 0 < 2 ^ min place scale := Nat.pow_pos (by decide)
  rw [← roundQuotient_mul_left (2 ^ min place scale) _ _ common]
  simp only [Nat.shiftLeft_eq, Nat.one_mul]
  have left : min place scale + (place - scale) = place := by omega
  have right : min place scale + (scale - place) = scale := by omega
  rw [Nat.mul_left_comm, ← Nat.pow_add, ← Nat.pow_add, left, right]

theorem assembled_lt (scale significand : Nat) : assembled scale significand < 0x8000000000000000 :=
  Nat.lt_of_le_of_lt (Nat.min_le_right _ _) (by decide)

def rounded (negative : Bool) (num den : Nat) : Binary64 :=
  ⟨negative, nearest num den, assembled_lt _ _⟩

def roundedAt (negative : Bool) (place num : Nat) : Binary64 :=
  ⟨negative, nearestAt place num, assembled_lt _ _⟩

def onePlace : Nat := 1074

def ofFraction (negative : Bool) (num den : Nat) : Binary64 :=
  rounded negative (num <<< onePlace) den

def ofNat (n : Nat) : Binary64 := ofFraction false n 1

/-- The least whole number that is not below a positive `x`; zero for anything else. -/
def ceilNat (x : Binary64) : Nat :=
  if x.isNaN || x.negative then 0
  else (units x.magnitude + (1 <<< onePlace - 1)) >>> onePlace

/-- Equal on the two zeros, and otherwise the order of the numbers. -/
def ordinal (x : Binary64) : Int :=
  if x.negative then -x.magnitude else x.magnitude

/-- Tells all bit patterns apart: negative not-a-numbers are below every number, positive ones
above, and `-0` is below `0`. -/
def totalOrdinal (x : Binary64) : Int :=
  if x.negative then -x.magnitude - 1 else x.magnitude

def less (a b : Binary64) : Bool := !a.isNaN && !b.isNaN && a.ordinal < b.ordinal

def lessEq (a b : Binary64) : Bool := !a.isNaN && !b.isNaN && a.ordinal ≤ b.ordinal

/-- Numeric equality, which the two zeros meet and a not-a-number does not. -/
def same (a b : Binary64) : Bool := !a.isNaN && !b.isNaN && a.ordinal = b.ordinal

/-! ### Arithmetic -/

def neg (x : Binary64) : Binary64 := { x with negative := !x.negative }

/-- A signalling not-a-number becomes quiet; a quiet one stays. -/
def quieted (x : Binary64) : Binary64 :=
  if quiet : x.magnitude / 0x8000000000000 % 2 = 1 then x
  else ⟨x.negative, x.magnitude + 0x8000000000000, by have := x.magnitude_lt; omega⟩

/-- The sum of two numbers that are finite and not zero, rounded once. The significands are brought
to the lower of the two places, where sum and difference are exact. -/
def addFinite (a b : Binary64) : Binary64 :=
  let common := min (place a.magnitude) (place b.magnitude)
  let left := significand a.magnitude <<< (place a.magnitude - common)
  let right := significand b.magnitude <<< (place b.magnitude - common)
  if a.negative = b.negative then roundedAt a.negative common (left + right)
  else if right < left then roundedAt a.negative common (left - right)
  else if left < right then roundedAt b.negative common (right - left)
  else zero false

/-- The first operand that is not a number decides the result; opposite infinities have no sum. -/
def add (a b : Binary64) : Binary64 :=
  if a.isNaN then a.quieted
  else if b.isNaN then b.quieted
  else if a.isInfinite then
    if b.isInfinite && a.negative != b.negative then quietNaN true else a
  else if b.isInfinite then b
  else if a.magnitude = 0 then
    if b.magnitude = 0 then zero (a.negative && b.negative) else b
  else if b.magnitude = 0 then a
  else addFinite a b

def mul (a b : Binary64) : Binary64 :=
  let negative := a.negative != b.negative
  if a.isNaN then a.quieted
  else if b.isNaN then b.quieted
  else if a.isInfinite || b.isInfinite then
    if a.magnitude = 0 || b.magnitude = 0 then quietNaN true else infinity negative
  else rounded negative (units a.magnitude * units b.magnitude) (1 <<< onePlace)

def div (a b : Binary64) : Binary64 :=
  let negative := a.negative != b.negative
  if a.isNaN then a.quieted
  else if b.isNaN then b.quieted
  else if a.isInfinite then
    if b.isInfinite then quietNaN true else infinity negative
  else if b.isInfinite then zero negative
  else if b.magnitude = 0 then
    if a.magnitude = 0 then quietNaN true else infinity negative
  else ofFraction negative (units a.magnitude) (units b.magnitude)

instance : Zero Binary64 := ⟨zero false⟩
instance : One Binary64 := ⟨ofNat 1⟩
instance : Inhabited Binary64 := ⟨zero false⟩
instance : Neg Binary64 := ⟨neg⟩
instance : Add Binary64 := ⟨add⟩
instance : Sub Binary64 := ⟨fun a b => a + -b⟩
instance : Mul Binary64 := ⟨mul⟩
instance : Div Binary64 := ⟨div⟩
instance : LT Binary64 := ⟨fun a b => less a b⟩
instance : LE Binary64 := ⟨fun a b => lessEq a b⟩

end Binary64

instance : Coefficient Binary64 where
  decidableLT a b := inferInstanceAs (Decidable (Binary64.less a b = true))
  decidableLE a b := inferInstanceAs (Decidable (Binary64.lessEq a b = true))
  ranksBefore a b := decide (b.totalOrdinal ≤ a.totalOrdinal)

end BinaryQuadratic
