import BinaryQuadratic.Proofs.Attempt
import BinaryQuadratic.Random.Shuffle

set_option autoImplicit false

/-! A shuffle only swaps places, so what it gives is a rearrangement for every generator, and does not
depend on what stands at the places. -/

namespace BinaryQuadratic

variable {γ β : Type} [Generator γ] {n redraws : Nat} {items shuffled : Vector β n} {g g' : γ}

theorem perm_shufflePlaces {count : Nat} {bound : count ≤ n}
    (ends : shufflePlaces redraws count bound items g = some (shuffled, g')) :
    shuffled.Perm items := by
  induction count generalizing items g with
  | zero =>
      cases Draw.pure_eq_some_iff.mp ends
      exact .rfl
  | succ count ih =>
      cases count with
      | zero =>
          cases Draw.pure_eq_some_iff.mp ends
          exact .rfl
      | succ count =>
          obtain ⟨place, middle, drawn, rest⟩ := Draw.bind_eq_some_iff.mp ends
          exact (ih rest).trans (Vector.swap_perm bound (Nat.lt_of_lt_of_le place.isLt bound))

theorem perm_of_shuffle (ends : shuffle redraws items g = some (shuffled, g')) :
    shuffled.toList.Perm items.toList :=
  Vector.perm_iff_toList_perm.mp (perm_shufflePlaces ends)

section Renaming

variable {κ : Type} (f : β → κ)

theorem swap_map (items : Vector β n) {i j : Nat} (hi : i < n) (hj : j < n) :
    (items.map f).swap i j = (items.swap i j).map f := by
  ext k inside
  simp only [Vector.getElem_swap, Vector.getElem_map, apply_ite f]

theorem shufflePlaces_map (count : Nat) (bound : count ≤ n) (items : Vector β n) :
    (shufflePlaces redraws count bound (items.map f) : Draw γ _) =
      Vector.map f <$> shufflePlaces redraws count bound items := by
  induction count generalizing items with
  | zero => exact (map_pure (Vector.map f) items).symm
  | succ count ih =>
      cases count with
      | zero => exact (map_pure (Vector.map f) items).symm
      | succ count =>
          unfold shufflePlaces
          rw [map_bind]
          refine bind_congr fun place => ?_
          rw [← ih, swap_map]

theorem shuffle_map (redraws : Nat) (items : Vector β n) :
    (shuffle redraws (items.map f) : Draw γ _) = Vector.map f <$> shuffle redraws items :=
  shufflePlaces_map f n (Nat.le_refl n) items

end Renaming

end BinaryQuadratic
