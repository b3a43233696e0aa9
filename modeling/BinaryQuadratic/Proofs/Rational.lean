import Mathlib
import BinaryQuadratic.Coefficient

set_option autoImplicit false

/-! Exact arithmetic: objectives summed in the rational numbers. A sum that is taken term by term
is then the sum of its terms, in whatever order they come. -/

namespace BinaryQuadratic

instance : Coefficient ℚ where
  decidableLT _ _ := inferInstance
  decidableLE _ _ := inferInstance
  ranksBefore a b := decide (b ≤ a)

theorem Coefficient.signed_eq (positive : Bool) (a : ℚ) :
    Coefficient.signed positive a = if positive then a else -a := rfl

theorem foldl_add_eq_sum {β : Type} (term : β → ℚ) (items : List β) (start : ℚ) :
    items.foldl (fun total item => total + term item) start = start + (items.map term).sum := by
  induction items generalizing start with
  | nil =>
      rw [List.map_nil, List.sum_nil, add_zero]
      rfl
  | cons item rest ih =>
      simp only [List.foldl_cons, ih, List.map_cons, List.sum_cons]
      ring

theorem sum_map_filter {β : Type} (term : β → ℚ) (keeps : β → Bool) (items : List β) :
    ((items.filter keeps).map term).sum =
      (items.map fun item => if keeps item then term item else 0).sum := by
  induction items with
  | nil => rfl
  | cons item rest ih =>
      cases kept : keeps item with
      | false => simp [kept, ih]
      | true => simp [kept, ih]

theorem sum_map_filter_finRange {n : Nat} (term : Fin n → ℚ) (keeps : Fin n → Bool) :
    (((List.finRange n).filter keeps).map term).sum = ∑ i, if keeps i then term i else 0 := by
  rw [sum_map_filter, Fin.sum_univ_def]

end BinaryQuadratic
