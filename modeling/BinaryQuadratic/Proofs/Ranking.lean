import BinaryQuadratic.Ranking

set_option autoImplicit false

/-! Insertion puts a list in order, whatever total order is asked for. A ranking lists every variable
once, and so do the chunks that it is cut into. -/

namespace BinaryQuadratic

section Sorting

variable {β : Type} {r : β → β → Prop} [DecidableRel r]
  (total : ∀ a b, r a b ∨ r b a) (transitive : ∀ a b c, r a b → r b c → r a c)

include total transitive

theorem pairwise_insertSorted (a : β) {items : List β} (sorted : items.Pairwise r) :
    (insertSorted (fun a b => decide (r a b)) a items).Pairwise r := by
  induction items with
  | nil => exact List.pairwise_singleton r a
  | cons b rest ih =>
      obtain ⟨after_b, rest_sorted⟩ := List.pairwise_cons.mp sorted
      unfold insertSorted
      by_cases before : r a b
      · rw [if_pos (decide_eq_true before), List.pairwise_cons]
        refine ⟨fun c member => ?_, sorted⟩
        rcases List.mem_cons.mp member with rfl | member
        · exact before
        · exact transitive a b c before (after_b c member)
      · rw [if_neg (by simpa using before), List.pairwise_cons]
        refine ⟨fun c member => ?_, ih rest_sorted⟩
        rcases List.mem_cons.mp ((perm_insertSorted _ a rest).mem_iff.mp member) with rfl | member
        · exact (total b c).resolve_right before
        · exact after_b c member

theorem pairwise_insertionSort (items : List β) :
    (insertionSort (fun a b => decide (r a b)) items).Pairwise r := by
  induction items with
  | nil => exact List.Pairwise.nil
  | cons a rest ih => exact pairwise_insertSorted total transitive a ih

end Sorting

theorem ascending_insertionSort {items : List Nat} (distinct : items.Nodup) :
    (insertionSort (fun i j => decide (i ≤ j)) items).Pairwise (· < ·) := by
  have ordered : (insertionSort (fun i j => decide (i ≤ j)) items).Pairwise (· ≤ ·) :=
    pairwise_insertionSort Nat.le_total (fun _ _ _ => Nat.le_trans) _
  have apart : (insertionSort (fun i j => decide (i ≤ j)) items).Pairwise (· ≠ ·) :=
    (perm_insertionSort _ _).nodup_iff.mpr distinct
  exact (ordered.and apart).imp fun both => Nat.lt_of_le_of_ne both.1 both.2

section Renaming

variable {β κ : Type} {f : β → κ}

theorem insertSorted_map {before : β → β → Bool} {before' : κ → κ → Bool}
    (same : ∀ a b, before' (f a) (f b) = before a b) (a : β) (items : List β) :
    insertSorted before' (f a) (items.map f) = (insertSorted before a items).map f := by
  induction items with
  | nil => rfl
  | cons b rest ih =>
      rw [List.map_cons, insertSorted, insertSorted, same, ih]
      cases before a b with
      | true => rfl
      | false => rfl

theorem insertionSort_map {before : β → β → Bool} {before' : κ → κ → Bool}
    (same : ∀ a b, before' (f a) (f b) = before a b) (items : List β) :
    insertionSort before' (items.map f) = (insertionSort before items).map f := by
  induction items with
  | nil => rfl
  | cons a rest ih =>
      change insertSorted before' (f a) (insertionSort before' (rest.map f)) = _
      rw [ih, insertSorted_map same]
      rfl

theorem chunks_map (f : β → κ) (width : Nat) (items : List β) :
    chunks width (items.map f) = (chunks width items).map (List.map f) := by
  unfold chunks
  rw [List.length_map, List.map_map]
  refine List.map_congr_left fun k _ => ?_
  rw [Function.comp_apply, List.map_take, List.map_drop]

end Renaming

theorem nodup_ranking {α : Type} [Coefficient α] {n : Nat} (values : Vector α n) :
    (ranking values).Nodup :=
  (perm_insertionSort _ _).nodup_iff.mpr (List.nodup_finRange n)

theorem nodup_of_mem_chunks {β : Type} {width : Nat} {items chunk : List β} (distinct : items.Nodup)
    (member : chunk ∈ chunks width items) : chunk.Nodup := by
  obtain ⟨k, _, rfl⟩ := List.mem_map.mp member
  exact distinct.sublist ((List.take_sublist _ _).trans (List.drop_sublist _ _))

section Cutting

variable {β : Type} {width : Nat}

theorem chunks_nil (positive : 0 < width) : chunks width ([] : List β) = [] := by
  have none_left : (0 + width - 1) / width = 0 := Nat.div_eq_of_lt (by omega)
  unfold chunks
  rw [List.length_nil, none_left]
  rfl

theorem chunks_of_ne_nil (positive : 0 < width) {items : List β} (some_left : items ≠ []) :
    chunks width items = items.take width :: chunks width (items.drop width) := by
  have length_pos : 0 < items.length := List.length_pos_iff.mpr some_left
  have count : (items.length + width - 1) / width =
      (items.length - width + width - 1) / width + 1 := by
    rcases Nat.le_total width items.length with more | less
    · rw [Nat.sub_add_cancel more, ← Nat.add_div_right _ positive]
      congr 1
      omega
    · have left : items.length - width + width - 1 < width := by omega
      have right : items.length + width - 1 = items.length - 1 + width := by omega
      rw [Nat.div_eq_of_lt left, right, Nat.add_div_right _ positive, Nat.div_eq_of_lt (by omega)]
  unfold chunks
  rw [count, List.range_succ_eq_map, List.map_cons, List.map_map, List.length_drop, Nat.zero_mul,
    List.drop_zero]
  refine congrArg (List.take width items :: ·) (List.map_congr_left fun k _ => ?_)
  rw [Function.comp_apply, List.drop_drop, Nat.succ_mul, Nat.add_comm]

/-- Cutting loses nothing, keeps the order, and leaves no piece empty or too long. -/
theorem chunks_spec (positive : 0 < width) (items : List β) :
    (chunks width items).flatten = items ∧
      ∀ chunk ∈ chunks width items, 0 < chunk.length ∧ chunk.length ≤ width := by
  induction count : items.length using Nat.strongRecOn generalizing items with
  | ind count ih =>
      by_cases empty : items = []
      · rw [empty, chunks_nil positive]
        exact ⟨rfl, fun _ member => absurd member List.not_mem_nil⟩
      · have length_pos : 0 < items.length := List.length_pos_iff.mpr empty
        obtain ⟨joined, bounds⟩ := ih (items.drop width).length
          (by rw [List.length_drop]; omega) (items.drop width) rfl
        rw [chunks_of_ne_nil positive empty]
        constructor
        · rw [List.flatten_cons, joined, List.take_append_drop]
        · intro chunk member
          rcases List.mem_cons.mp member with rfl | later
          · rw [List.length_take]
            exact ⟨Nat.lt_min.mpr ⟨positive, length_pos⟩, Nat.min_le_left _ _⟩
          · exact bounds chunk later

end Cutting

end BinaryQuadratic
