import BinaryQuadratic.Proofs.Ranking
import BinaryQuadratic.Proofs.Shares

set_option autoImplicit false

/-! The total order of the double-precision numbers, not-a-numbers and both zeros among them. It tells
all bit patterns apart, so only one order of positions goes by value first and by position second,
and the ranking is that order. -/

namespace BinaryQuadratic

namespace Binary64

variable {a b : Binary64}

/-- The first bit of the fraction, which tells quiet not-a-numbers from signalling ones. -/
def isQuiet (x : Binary64) : Bool := x.magnitude / 0x8000000000000 % 2 = 1

def payload (x : Binary64) : Nat := x.magnitude % 0x8000000000000

/-- The order of two positive not-a-numbers: signalling before quiet, and then by payload. -/
def Lighter (a b : Binary64) : Prop :=
  (a.isQuiet = false ∧ b.isQuiet = true) ∨ (a.isQuiet = b.isQuiet ∧ a.payload < b.payload)

/-- The numbers in their order, with `-0` before `0`, stand between the negative and the positive
not-a-numbers, and the heavier of these stand further out. -/
inductive TotallyBelow (a b : Binary64) : Prop
  | numbers (less : a < b)
  | zeros (left : a = zero true) (right : b = zero false)
  | fromBelow (left : a.isNaN = true) (sign : a.negative = true) (right : b.isNaN = false)
  | toAbove (left : a.isNaN = false) (right : b.isNaN = true) (sign : b.negative = false)
  | across (left : a.isNaN = true) (right : b.isNaN = true) (left_sign : a.negative = true)
      (right_sign : b.negative = false)
  | below (left : a.isNaN = true) (right : b.isNaN = true) (left_sign : a.negative = true)
      (right_sign : b.negative = true) (lighter : Lighter b a)
  | above (left : a.isNaN = true) (right : b.isNaN = true) (left_sign : a.negative = false)
      (right_sign : b.negative = false) (lighter : Lighter a b)

theorem isNaN_iff : a.isNaN = true ↔ infinite < a.magnitude := decide_eq_true_iff

theorem totalOrdinal_of_positive (sign : a.negative = false) : a.totalOrdinal = a.magnitude := by
  unfold totalOrdinal
  rw [sign]
  rfl

theorem totalOrdinal_of_negative (sign : a.negative = true) :
    a.totalOrdinal = -a.magnitude - 1 := by
  unfold totalOrdinal
  rw [sign]
  rfl

theorem totalOrdinal_inj (same : a.totalOrdinal = b.totalOrdinal) : a = b := by
  cases a_sign : a.negative with
  | false =>
      rw [totalOrdinal_of_positive a_sign] at same
      cases b_sign : b.negative with
      | false =>
          rw [totalOrdinal_of_positive b_sign] at same
          exact eq_of_magnitude_eq (a_sign.trans b_sign.symm) (Int.ofNat_inj.mp same)
      | true =>
          rw [totalOrdinal_of_negative b_sign] at same
          omega
  | true =>
      rw [totalOrdinal_of_negative a_sign] at same
      cases b_sign : b.negative with
      | false =>
          rw [totalOrdinal_of_positive b_sign] at same
          omega
      | true =>
          rw [totalOrdinal_of_negative b_sign] at same
          apply eq_of_magnitude_eq (a_sign.trans b_sign.symm)
          omega

theorem lighter_iff (left : a.isNaN = true) (right : b.isNaN = true) :
    Lighter a b ↔ a.magnitude < b.magnitude := by
  have left_least := isNaN_iff.mp left
  have right_least := isNaN_iff.mp right
  have left_bound := a.magnitude_lt
  have right_bound := b.magnitude_lt
  unfold Lighter isQuiet payload
  unfold infinite at left_least right_least
  simp only [decide_eq_false_iff_not, decide_eq_true_eq, decide_eq_decide]
  omega

/-- Of two numbers the lesser stands first, and of two equal ones a negative zero. -/
theorem totalOrdinal_lt_iff_of_numbers (left : a.isNaN = false) (right : b.isNaN = false) :
    a.totalOrdinal < b.totalOrdinal ↔ a < b ∨ (a = zero true ∧ b = zero false) := by
  have zeros_iff : a = zero true ∧ b = zero false ↔
      (a.negative = true ∧ a.magnitude = 0) ∧ (b.negative = false ∧ b.magnitude = 0) := by
    constructor
    · rintro ⟨rfl, rfl⟩
      exact ⟨⟨rfl, rfl⟩, ⟨rfl, rfl⟩⟩
    · rintro ⟨⟨a_sign, a_zero⟩, ⟨b_sign, b_zero⟩⟩
      exact ⟨eq_of_magnitude_eq a_sign a_zero, eq_of_magnitude_eq b_sign b_zero⟩
  rw [lt_iff, zeros_iff]
  simp only [left, right, true_and]
  cases a_sign : a.negative with
  | false =>
      rw [totalOrdinal_of_positive a_sign, ordinal_of_positive a_sign]
      cases b_sign : b.negative with
      | false =>
          rw [totalOrdinal_of_positive b_sign, ordinal_of_positive b_sign]
          simp
      | true =>
          rw [totalOrdinal_of_negative b_sign, ordinal_of_negative b_sign]
          simp
          omega
  | true =>
      rw [totalOrdinal_of_negative a_sign, ordinal_of_negative a_sign]
      cases b_sign : b.negative with
      | false =>
          rw [totalOrdinal_of_positive b_sign, ordinal_of_positive b_sign]
          simp
          omega
      | true =>
          rw [totalOrdinal_of_negative b_sign, ordinal_of_negative b_sign]
          simp

theorem totalOrdinal_bounds (number : a.isNaN = false) :
    -(infinite : Int) - 1 ≤ a.totalOrdinal ∧ a.totalOrdinal ≤ infinite := by
  have bound := isNaN_eq_false_iff.mp number
  unfold totalOrdinal
  split <;> omega

theorem TotallyBelow.totalOrdinal_lt (below : TotallyBelow a b) :
    a.totalOrdinal < b.totalOrdinal := by
  cases below with
  | numbers less =>
      obtain ⟨left, right, _⟩ := lt_iff.mp less
      exact (totalOrdinal_lt_iff_of_numbers left right).mpr (.inl less)
  | zeros left right =>
      rw [left, right]
      decide
  | fromBelow left sign right =>
      have outside := isNaN_iff.mp left
      have inside := (totalOrdinal_bounds right).1
      rw [totalOrdinal_of_negative sign]
      omega
  | toAbove left right sign =>
      have inside := (totalOrdinal_bounds left).2
      have outside := isNaN_iff.mp right
      rw [totalOrdinal_of_positive sign]
      omega
  | across _ _ left_sign right_sign =>
      rw [totalOrdinal_of_negative left_sign, totalOrdinal_of_positive right_sign]
      omega
  | below left right left_sign right_sign lighter =>
      have less := (lighter_iff right left).mp lighter
      rw [totalOrdinal_of_negative left_sign, totalOrdinal_of_negative right_sign]
      omega
  | above left right left_sign right_sign lighter =>
      have less := (lighter_iff left right).mp lighter
      rw [totalOrdinal_of_positive left_sign, totalOrdinal_of_positive right_sign]
      omega

theorem totallyBelow_of_number (left : a.isNaN = false) (before : a.totalOrdinal < b.totalOrdinal) :
    TotallyBelow a b := by
  cases right : b.isNaN with
  | false =>
      rcases (totalOrdinal_lt_iff_of_numbers left right).mp before with less | ⟨first, last⟩
      · exact .numbers less
      · exact .zeros first last
  | true =>
      cases sign : b.negative with
      | false => exact .toAbove left right sign
      | true =>
          have inside := (totalOrdinal_bounds left).1
          have outside := isNaN_iff.mp right
          rw [totalOrdinal_of_negative sign] at before
          omega

/-- Above a positive not-a-number there are only heavier ones. -/
theorem totallyBelow_of_positive (left : a.isNaN = true) (left_sign : a.negative = false)
    (before : a.totalOrdinal < b.totalOrdinal) : TotallyBelow a b := by
  have outside := isNaN_iff.mp left
  rw [totalOrdinal_of_positive left_sign] at before
  cases right : b.isNaN with
  | false =>
      have inside := (totalOrdinal_bounds right).2
      omega
  | true =>
      cases right_sign : b.negative with
      | false =>
          rw [totalOrdinal_of_positive right_sign] at before
          apply TotallyBelow.above left right left_sign right_sign
          exact (lighter_iff left right).mpr (Int.ofNat_lt.mp before)
      | true =>
          rw [totalOrdinal_of_negative right_sign] at before
          omega

theorem totallyBelow_of_negative (left : a.isNaN = true) (left_sign : a.negative = true)
    (before : a.totalOrdinal < b.totalOrdinal) : TotallyBelow a b := by
  cases right : b.isNaN with
  | false => exact .fromBelow left left_sign right
  | true =>
      cases right_sign : b.negative with
      | false => exact .across left right left_sign right_sign
      | true =>
          rw [totalOrdinal_of_negative left_sign, totalOrdinal_of_negative right_sign] at before
          apply TotallyBelow.below left right left_sign right_sign
          rw [lighter_iff right left]
          omega

theorem totallyBelow_iff : TotallyBelow a b ↔ a.totalOrdinal < b.totalOrdinal := by
  constructor
  · exact TotallyBelow.totalOrdinal_lt
  · intro before
    cases left : a.isNaN with
    | false => exact totallyBelow_of_number left before
    | true =>
        cases left_sign : a.negative with
        | false => exact totallyBelow_of_positive left left_sign before
        | true => exact totallyBelow_of_negative left left_sign before

theorem toNat_eq_of_ofBits (bits : UInt64) :
    bits.toNat = (if (ofBits bits).negative then 0x8000000000000000 else 0) +
      (ofBits bits).magnitude := by
  have magnitude_eq : (ofBits bits).magnitude = bits.toNat % 0x8000000000000000 := by
    change (bits &&& 0x7fffffffffffffff).toNat = _
    rw [UInt64.toNat_and]
    exact Nat.and_two_pow_sub_one_eq_mod bits.toNat 63
  have negative_iff : (ofBits bits).negative = true ↔ 0x8000000000000000 ≤ bits.toNat := by
    change decide (0x8000000000000000 ≤ bits) = true ↔ _
    rw [decide_eq_true_iff, UInt64.le_iff_toNat_le]
    rfl
  have bound := bits.toNat_lt
  rw [magnitude_eq]
  by_cases sign : (ofBits bits).negative = true
  · have high := negative_iff.mp sign
    rw [if_pos sign]
    omega
  · have low := mt negative_iff.mpr sign
    rw [if_neg sign]
    omega

theorem ofBits_inj {bits other : UInt64} (same : ofBits bits = ofBits other) : bits = other := by
  apply UInt64.toNat_inj.mp
  rw [toNat_eq_of_ofBits bits, toNat_eq_of_ofBits other, same]

end Binary64

/-! ### Rankings -/

section Agreement

variable {β : Type} {before before' : β → β → Bool}

theorem insertSorted_congr {a : β} {items : List β} (agree : ∀ b ∈ items, before a b = before' a b) :
    insertSorted before a items = insertSorted before' a items := by
  induction items with
  | nil => rfl
  | cons b rest ih =>
      rw [insertSorted, insertSorted, agree b List.mem_cons_self,
        ih fun c member => agree c (List.mem_cons_of_mem b member)]

/-- Insertion compares an item only with those after it. -/
theorem insertionSort_congr {items : List β}
    (agree : items.Pairwise fun a b => before a b = before' a b) :
    insertionSort before items = insertionSort before' items := by
  induction items with
  | nil => rfl
  | cons a rest ih =>
      obtain ⟨here, later⟩ := List.pairwise_cons.mp agree
      change insertSorted before a (insertionSort before rest) =
        insertSorted before' a (insertionSort before' rest)
      rw [ih later]
      apply insertSorted_congr
      intro b member
      exact here b ((perm_insertionSort before' rest).mem_iff.mp member)

end Agreement

variable {n : Nat}

/-- The value at `i` is the greater one, or the values are equal and `i` is not the later position. -/
def RankedBefore (values : Vector Binary64 n) (i j : Fin n) : Prop :=
  (values.get j).totalOrdinal < (values.get i).totalOrdinal ∨
    ((values.get j).totalOrdinal = (values.get i).totalOrdinal ∧ i ≤ j)

instance (values : Vector Binary64 n) : DecidableRel (RankedBefore values) :=
  fun _ _ => inferInstanceAs (Decidable (_ ∨ _))

theorem ranking_eq_insertionSort (values : Vector Binary64 n) :
    ranking values =
      insertionSort (fun i j => decide (RankedBefore values i j)) (List.finRange n) := by
  apply insertionSort_congr
  apply (List.pairwise_lt_finRange n).imp
  intro i j ordered
  change decide ((values.get j).totalOrdinal ≤ (values.get i).totalOrdinal) = _
  rw [decide_eq_decide]
  unfold RankedBefore
  omega

theorem pairwise_ranking (values : Vector Binary64 n) :
    (ranking values).Pairwise (RankedBefore values) := by
  rw [ranking_eq_insertionSort]
  apply pairwise_insertionSort
  · intro i j
    unfold RankedBefore
    omega
  · intro i j k first second
    unfold RankedBefore at first second ⊢
    omega

/-- The pattern at `i` is above the one at `j`, or they are the same and `i` is the earlier position. -/
def StandsBefore (bits : Vector UInt64 n) (i j : Fin n) : Prop :=
  Binary64.TotallyBelow (.ofBits (bits.get j)) (.ofBits (bits.get i)) ∨
    (bits.get i = bits.get j ∧ i < j)

theorem standsBefore_iff {bits : Vector UInt64 n} {i j : Fin n} :
    StandsBefore bits i j ↔ RankedBefore (bits.map Binary64.ofBits) i j ∧ i ≠ j := by
  have value_eq : ∀ v, (bits.map Binary64.ofBits).get v = .ofBits (bits.get v) := fun v =>
    Vector.getElem_map Binary64.ofBits v.isLt
  have same_iff : bits.get i = bits.get j ↔
      (Binary64.ofBits (bits.get j)).totalOrdinal = (Binary64.ofBits (bits.get i)).totalOrdinal := by
    constructor
    · intro same
      rw [same]
    · intro same
      exact (Binary64.ofBits_inj (Binary64.totalOrdinal_inj same)).symm
  unfold StandsBefore RankedBefore
  rw [value_eq, value_eq, Binary64.totallyBelow_iff, same_iff]
  constructor
  · rintro (above | ⟨same, earlier⟩)
    · refine ⟨.inl above, ?_⟩
      rintro rfl
      omega
    · exact ⟨.inr ⟨same, Fin.le_of_lt earlier⟩, Fin.ne_of_lt earlier⟩
  · rintro ⟨above | ⟨same, earlier⟩, different⟩
    · exact .inl above
    · exact .inr ⟨same, Nat.lt_of_le_of_ne earlier (mt Fin.ext different)⟩

/-- Every position once, from the greatest value to the least. -/
structure Ranks (bits : Vector UInt64 n) (order : List (Fin n)) : Prop where
  perm : order.Perm (List.finRange n)
  descending : ∀ (p r : Nat) (_ : p < r) (_ : r < order.length), StandsBefore bits order[p] order[r]

namespace Ranks

variable {bits : Vector UInt64 n} {order other : List (Fin n)}

theorem pairwise (ranks : Ranks bits order) : order.Pairwise (StandsBefore bits) := by
  rw [List.pairwise_iff_getElem]
  intro p r _ inside before
  exact ranks.descending p r before inside

theorem unique (ranks : Ranks bits order) (again : Ranks bits other) : order = other := by
  apply (ranks.perm.trans again.perm.symm).eq_of_pairwise ?_ ranks.pairwise again.pairwise
  intro i j _ _ forward backward
  obtain ⟨first, _⟩ := standsBefore_iff.mp forward
  obtain ⟨second, _⟩ := standsBefore_iff.mp backward
  unfold RankedBefore at first second
  omega

theorem of_ranking (bits : Vector UInt64 n) : Ranks bits (ranking (bits.map Binary64.ofBits)) := by
  have apart : (ranking (bits.map Binary64.ofBits)).Pairwise (· ≠ ·) := nodup_ranking _
  have ordered := ((pairwise_ranking _).and apart).imp standsBefore_iff.mpr
  constructor
  · exact perm_insertionSort _ _
  · intro p r before inside
    exact List.pairwise_iff_getElem.mp ordered p r (Nat.lt_trans before inside) inside before

end Ranks

/-- Whatever the bit patterns are, one list has all positions in descending order of the values, equal
patterns in ascending order of position, and the ranking is that list. -/
theorem ranks_iff_eq_ranking (bits : Vector UInt64 n) (order : List (Fin n)) :
    Ranks bits order ↔ order = ranking (bits.map Binary64.ofBits) := by
  constructor
  · intro ranks
    exact ranks.unique (.of_ranking bits)
  · rintro rfl
    exact .of_ranking bits

/-- A positive signalling not-a-number, an infinity, one, the two zeros with two like patterns, and
negative not-a-numbers, the heavier one last. -/
example :
    let bits : Vector UInt64 8 := #v[0xfff8000000000000, 0x8000000000000000, 0x3ff0000000000000, 0,
      0xfff0000000000001, 0x7ff0000000000001, 0x8000000000000000, 0x7ff0000000000000]
    ranking (bits.map Binary64.ofBits) = [5, 7, 2, 3, 1, 6, 4, 0] := by
  decide +kernel

end BinaryQuadratic
