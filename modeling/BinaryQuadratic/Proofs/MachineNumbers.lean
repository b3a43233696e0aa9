import BinaryQuadratic.Binary64

set_option autoImplicit false

/-! Double-precision numbers under comparison and under a change of sign. A sum of numbers with their
signs changed is the sum with its sign changed, up to the sign of a zero. -/

namespace BinaryQuadratic.Binary64

variable {a b c : Binary64}

theorem lt_iff : a < b ↔ a.isNaN = false ∧ b.isNaN = false ∧ a.ordinal < b.ordinal := by
  change (!a.isNaN && !b.isNaN && decide (a.ordinal < b.ordinal)) = true ↔ _
  simp [and_assoc]

theorem not_lt_self (a : Binary64) : ¬a < a := by
  intro less
  exact Int.lt_irrefl _ (lt_iff.mp less).2.2

theorem lt_trans (first : a < b) (second : b < c) : a < c := by
  obtain ⟨a_number, _, before⟩ := lt_iff.mp first
  obtain ⟨_, c_number, after⟩ := lt_iff.mp second
  exact lt_iff.mpr ⟨a_number, c_number, Int.lt_trans before after⟩

theorem le_iff : a ≤ b ↔ a.isNaN = false ∧ b.isNaN = false ∧ a.ordinal ≤ b.ordinal := by
  change (!a.isNaN && !b.isNaN && decide (a.ordinal ≤ b.ordinal)) = true ↔ _
  simp [and_assoc]

theorem le_trans (first : a ≤ b) (second : b ≤ c) : a ≤ c := by
  obtain ⟨a_number, _, before⟩ := le_iff.mp first
  obtain ⟨_, c_number, after⟩ := le_iff.mp second
  exact le_iff.mpr ⟨a_number, c_number, Int.le_trans before after⟩

theorem lt_of_le_of_lt (first : a ≤ b) (second : b < c) : a < c := by
  obtain ⟨a_number, _, before⟩ := le_iff.mp first
  obtain ⟨_, c_number, after⟩ := lt_iff.mp second
  exact lt_iff.mpr ⟨a_number, c_number, Int.lt_of_le_of_lt before after⟩

theorem le_of_not_lt (a_number : a.isNaN = false) (b_number : b.isNaN = false) (misses : ¬b < a) :
    a ≤ b := by
  refine le_iff.mpr ⟨a_number, b_number, Int.not_lt.mp fun before => ?_⟩
  exact misses (lt_iff.mpr ⟨b_number, a_number, before⟩)

theorem neg_neg (a : Binary64) : - -a = a := by
  change (⟨!!a.negative, a.magnitude, a.magnitude_lt⟩ : Binary64) = a
  rw [Bool.not_not]

theorem negative_neg (a : Binary64) : (-a).negative = !a.negative := rfl

theorem magnitude_neg (a : Binary64) : (-a).magnitude = a.magnitude := rfl

theorem isNaN_neg (a : Binary64) : (-a).isNaN = a.isNaN := rfl

theorem ordinal_neg (a : Binary64) : (-a).ordinal = -a.ordinal := by
  rcases a with ⟨negative, magnitude, _⟩
  cases negative with
  | false => rfl
  | true => exact (Int.neg_neg _).symm

theorem neg_le_iff : -a ≤ b ↔ -b ≤ a := by
  rw [le_iff, le_iff, isNaN_neg, isNaN_neg, ordinal_neg, ordinal_neg]
  have turned : -a.ordinal ≤ b.ordinal ↔ -b.ordinal ≤ a.ordinal := by omega
  rw [turned, and_left_comm]

theorem isNaN_of_magnitude_eq_zero (zero : a.magnitude = 0) : a.isNaN = false := by
  unfold isNaN
  rw [zero]
  rfl

theorem isInfinite_of_magnitude_eq_zero (zero : a.magnitude = 0) : a.isInfinite = false := by
  unfold isInfinite
  rw [zero]
  rfl

theorem quieted_neg (a : Binary64) : (-a).quieted = -a.quieted := by
  by_cases quiet : a.magnitude / 0x8000000000000 % 2 = 1
  · have left : (-a).quieted = -a := dif_pos quiet
    have right : a.quieted = a := dif_pos quiet
    rw [left, right]
  · have left : (-a).quieted = _ := dif_neg quiet
    have right : a.quieted = _ := dif_neg quiet
    rw [left, right]
    rfl

theorem isNaN_quieted (number : a.isNaN = true) : a.quieted.isNaN = true := by
  unfold isNaN at number
  unfold quieted
  by_cases quiet : a.magnitude / 0x8000000000000 % 2 = 1
  · rw [dif_pos quiet]
    exact number
  · rw [dif_neg quiet]
    exact decide_eq_true (Nat.lt_of_lt_of_le (of_decide_eq_true number) (Nat.le_add_right _ _))

/-- Equal numbers, among them the two zeros, or two that are not numbers. -/
def Alike (a b : Binary64) : Prop := a.same b = true ∨ (a.isNaN = true ∧ b.isNaN = true)

theorem ordinal_eq_iff : a.ordinal = b.ordinal ↔ a = b ∨ (a.magnitude = 0 ∧ b.magnitude = 0) := by
  rcases a with ⟨a_negative, a_magnitude, _⟩
  rcases b with ⟨b_negative, b_magnitude, _⟩
  cases a_negative <;> cases b_negative
  all_goals
    simp only [ordinal, mk.injEq, reduceCtorEq, if_true, if_false, true_and, false_and, false_or]
    omega

theorem alike_iff : Alike a b ↔
    a = b ∨ (a.isNaN = true ∧ b.isNaN = true) ∨ (a.magnitude = 0 ∧ b.magnitude = 0) := by
  have same_iff : a.same b = true ↔ a.isNaN = false ∧ b.isNaN = false ∧ a.ordinal = b.ordinal := by
    unfold same
    simp [and_assoc]
  unfold Alike
  rw [same_iff, ordinal_eq_iff]
  constructor
  · rintro (⟨_, _, equal | zeros⟩ | neither)
    · exact .inl equal
    · exact .inr (.inr zeros)
    · exact .inr (.inl neither)
  · rintro (rfl | neither | zeros)
    · cases number : a.isNaN with
      | false => exact .inl ⟨rfl, rfl, .inl rfl⟩
      | true => exact .inr ⟨rfl, rfl⟩
    · exact .inr neither
    · exact .inl ⟨isNaN_of_magnitude_eq_zero zeros.1, isNaN_of_magnitude_eq_zero zeros.2, .inr zeros⟩

namespace Alike

theorem of_isNaN (left : a.isNaN = true) (right : b.isNaN = true) : Alike a b := .inr ⟨left, right⟩

theorem of_zeros (left : a.magnitude = 0) (right : b.magnitude = 0) : Alike a b :=
  alike_iff.mpr (.inr (.inr ⟨left, right⟩))

theorem refl (a : Binary64) : Alike a a := alike_iff.mpr (.inl rfl)

theorem symm (alike : Alike a b) : Alike b a := by
  rcases alike_iff.mp alike with rfl | ⟨left, right⟩ | ⟨left, right⟩
  · exact .refl _
  · exact .of_isNaN right left
  · exact .of_zeros right left

theorem trans (first : Alike a b) (second : Alike b c) : Alike a c := by
  rcases alike_iff.mp first with rfl | ⟨left, middle⟩ | ⟨left, middle⟩
  · exact second
  · rcases alike_iff.mp second with rfl | ⟨_, right⟩ | ⟨zero, _⟩
    · exact first
    · exact .of_isNaN left right
    · rw [isNaN_of_magnitude_eq_zero zero] at middle
      cases middle
  · rcases alike_iff.mp second with rfl | ⟨number, _⟩ | ⟨_, right⟩
    · exact first
    · rw [isNaN_of_magnitude_eq_zero middle] at number
      cases number
    · exact .of_zeros left right

end Alike

/-! ### Finite numbers -/

def IsFinite (a : Binary64) : Prop := a.magnitude < infinite

instance (a : Binary64) : Decidable a.IsFinite := inferInstanceAs (Decidable (a.magnitude < infinite))

theorem IsFinite.neg (finite : a.IsFinite) : (-a).IsFinite := finite

theorem IsFinite.isNaN_eq (finite : a.IsFinite) : a.isNaN = false :=
  decide_eq_false (Nat.not_lt.mpr (Nat.le_of_lt finite))

theorem IsFinite.isInfinite_eq (finite : a.IsFinite) : a.isInfinite = false :=
  decide_eq_false (Nat.ne_of_lt finite)

theorem isNaN_roundedAt (negative : Bool) (place num : Nat) :
    (roundedAt negative place num).isNaN = false :=
  decide_eq_false (Nat.not_lt.mpr (Nat.min_le_right _ _))

theorem isNaN_ite {p : Prop} [Decidable p] (holds : p → a.isNaN = false)
    (fails : ¬p → b.isNaN = false) : (if p then a else b).isNaN = false := by
  by_cases chosen : p
  · rw [if_pos chosen]
    exact holds chosen
  · rw [if_neg chosen]
    exact fails chosen

theorem isNaN_addFinite (a b : Binary64) : (addFinite a b).isNaN = false := by
  unfold addFinite
  refine isNaN_ite (fun _ => isNaN_roundedAt ..) fun _ => ?_
  refine isNaN_ite (fun _ => isNaN_roundedAt ..) fun _ => ?_
  exact isNaN_ite (fun _ => isNaN_roundedAt ..) fun _ => rfl

/-- A sum of finite numbers may overflow, but an infinity stays when a finite number is added. -/
theorem isNaN_add (number : a.isNaN = false) (finite : b.IsFinite) : (a + b).isNaN = false := by
  change (add a b).isNaN = false
  unfold add
  simp only [number, finite.isNaN_eq, finite.isInfinite_eq, Bool.false_eq_true, if_false,
    Bool.false_and]
  refine isNaN_ite (fun _ => number) fun _ => isNaN_ite (fun _ => ?_) fun _ => ?_
  · exact isNaN_ite (fun _ => rfl) fun _ => finite.isNaN_eq
  · exact isNaN_ite (fun _ => number) fun _ => isNaN_addFinite a b

theorem add_of_isNaN_left (number : a.isNaN = true) : a + c = a.quieted := if_pos number

theorem add_of_zero_left (zero : a.magnitude = 0) : Alike (a + c) c := by
  change Alike (add a c) c
  unfold add
  simp only [isNaN_of_magnitude_eq_zero zero, isInfinite_of_magnitude_eq_zero zero, zero, if_true,
    Bool.false_eq_true, if_false]
  by_cases number : c.isNaN = true
  · rw [if_pos number]
    exact .of_isNaN (isNaN_quieted number) number
  · rw [if_neg number]
    by_cases zero : c.magnitude = 0
    · rw [if_neg (by simp [isInfinite_of_magnitude_eq_zero zero]), if_pos zero]
      exact .of_zeros rfl zero
    · rw [if_neg zero, ite_self]
      exact .refl c

theorem Alike.add_right (alike : Alike a b) (c : Binary64) : Alike (a + c) (b + c) := by
  rcases alike_iff.mp alike with rfl | ⟨left, right⟩ | ⟨left, right⟩
  · exact .refl _
  · rw [add_of_isNaN_left left, add_of_isNaN_left right]
    exact .of_isNaN (isNaN_quieted left) (isNaN_quieted right)
  · exact (add_of_zero_left left).trans (add_of_zero_left right).symm

theorem neg_roundedAt (negative : Bool) (place num : Nat) :
    -roundedAt negative place num = roundedAt (!negative) place num := rfl

/-- Both sides of a choice may be compared with the sign changed. -/
theorem Alike.ite_neg {p p' : Prop} [Decidable p] [Decidable p'] {a' b' : Binary64} (same : p' ↔ p)
    (holds : Alike a' (-a)) (fails : Alike b' (-b)) :
    Alike (if p' then a' else b') (-if p then a else b) := by
  by_cases chosen : p
  · rw [if_pos (same.mpr chosen), if_pos chosen]
    exact holds
  · rw [if_neg fun other => chosen (same.mp other), if_neg chosen]
    exact fails

theorem addFinite_neg (a b : Binary64) : Alike (addFinite (-a) (-b)) (-addFinite a b) := by
  have signs : (-a).negative = (-b).negative ↔ a.negative = b.negative := by
    rw [negative_neg, negative_neg, Bool.not_inj_iff]
  have rounds : ∀ (negative : Bool) (place num : Nat),
      Alike (roundedAt (!negative) place num) (-roundedAt negative place num) := by
    intro negative place num
    rw [neg_roundedAt]
    exact .refl _
  unfold addFinite
  simp only [magnitude_neg]
  apply Alike.ite_neg signs (rounds ..)
  apply Alike.ite_neg Iff.rfl (rounds ..)
  apply Alike.ite_neg Iff.rfl (rounds ..)
  exact .of_zeros rfl rfl

/-- Rounding is the same on both sides of zero, so only the sign of a sum that is zero can differ. -/
theorem neg_add_neg (a b : Binary64) : Alike (-a + -b) (-(a + b)) := by
  have apart : ((b.isInfinite && (-a).negative != (-b).negative) = true) ↔
      (b.isInfinite && a.negative != b.negative) = true := by
    rw [negative_neg, negative_neg, Bool.not_bne_not]
  have quiets : ∀ c : Binary64, Alike (-c).quieted (-c.quieted) := by
    intro c
    rw [quieted_neg]
    exact .refl _
  change Alike (add (-a) (-b)) (-add a b)
  unfold add
  refine .ite_neg Iff.rfl (quiets a) (.ite_neg Iff.rfl (quiets b) ?_)
  refine .ite_neg Iff.rfl ?_ (.ite_neg Iff.rfl (.refl _) ?_)
  · refine .ite_neg apart ?_ (.refl _)
    exact .of_isNaN rfl rfl
  · refine .ite_neg Iff.rfl ?_ (.ite_neg Iff.rfl (.refl _) (addFinite_neg a b))
    refine .ite_neg Iff.rfl ?_ (.refl _)
    exact .of_zeros rfl rfl

end BinaryQuadratic.Binary64
