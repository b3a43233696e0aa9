import BinaryQuadratic.Proofs.Shuffling
import BinaryQuadratic.Random.Sample

set_option autoImplicit false

/-! Random samples have no number twice, whatever words the generator gives. Swapping only rearranges
all numbers; a candidate that stands in for a repeated number is greater than everything picked
before it; and a number that is drawn again until it is new is new. -/

namespace BinaryQuadratic.Sample

variable {γ β : Type} [Generator γ] {n redraws amount : Nat} {g g' : γ}

theorem perm_settle {count done : Nat} {bound : done + count ≤ n} {items settled : Vector β n}
    (ends : settle redraws count done bound items g = some (settled, g')) : settled.Perm items := by
  induction count generalizing done items g with
  | zero =>
      cases Draw.pure_eq_some_iff.mp ends
      exact .rfl
  | succ count ih =>
      obtain ⟨offset, middle, drawn, rest⟩ := Draw.bind_eq_some_iff.mp ends
      exact (ih rest).trans (Vector.swap_perm _ _)

theorem perm_of_inPlace {bound : amount ≤ n} {picked : List (Fin n)}
    (ends : inPlace redraws amount bound g = some (picked, g')) :
    ∃ all : List (Fin n), all.Perm (List.finRange n) ∧ picked = all.take amount := by
  obtain ⟨settled, middle, settles, finish⟩ := Draw.bind_eq_some_iff.mp ends
  cases Draw.pure_eq_some_iff.mp finish
  have perm := Vector.perm_iff_toList_perm.mp (perm_settle settles)
  rw [Vector.toList_ofFn] at perm
  exact ⟨settled.toList, perm, rfl⟩

theorem distinct_of_inPlace {bound : amount ≤ n} {picked : List (Fin n)}
    (ends : inPlace redraws amount bound g = some (picked, g')) :
    picked.Nodup ∧ picked.length = amount := by
  obtain ⟨all, perm, rfl⟩ := perm_of_inPlace ends
  constructor
  · exact (perm.nodup_iff.mpr (List.nodup_finRange n)).sublist (List.take_sublist amount all)
  · rw [List.length_take, perm.length_eq, List.length_finRange]
    exact Nat.min_eq_left bound

theorem perm_insertBefore (picked : List (Fin n)) (candidate number : Fin n) :
    (picked.takeWhile (· ≠ number) ++ candidate :: picked.dropWhile (· ≠ number)).Perm
      (candidate :: picked) := by
  apply List.perm_middle.trans
  rw [List.takeWhile_append_dropWhile]

/-- The number drawn, or the candidate in its place, comes to what is picked. -/
theorem exists_of_standInFrom_cons {repeated : Repeated} {candidate : Fin n}
    {rest picked result : List (Fin n)} (fresh : candidate ∉ picked)
    (ends : standInFrom redraws repeated (candidate :: rest) picked g = some (result, g')) :
    ∃ added next middle, added ∉ picked ∧ added ≤ candidate ∧ next.Perm (added :: picked) ∧
      standInFrom redraws repeated rest next middle = some (result, g') := by
  obtain ⟨drawn, middle, _, continues⟩ := Draw.bind_eq_some_iff.mp ends
  by_cases again : drawn.castLE candidate.isLt ∈ picked
  · rw [if_pos again] at continues
    cases repeated with
    | insertsBefore =>
        exact ⟨candidate, _, middle, fresh, Fin.le_refl _, perm_insertBefore picked _ _, continues⟩
    | appends =>
        exact ⟨candidate, _, middle, fresh, Fin.le_refl _, List.perm_append_singleton _ _, continues⟩
  · rw [if_neg again] at continues
    have bounded : drawn.castLE candidate.isLt ≤ candidate := Nat.lt_succ_iff.mp drawn.isLt
    exact ⟨_, _, middle, again, bounded, List.perm_append_singleton _ _, continues⟩

theorem distinct_of_standInFrom {repeated : Repeated} {candidates picked result : List (Fin n)}
    (ascending : candidates.Pairwise (· < ·)) (distinct : picked.Nodup)
    (below : ∀ number ∈ picked, ∀ candidate ∈ candidates, number < candidate)
    (ends : standInFrom redraws repeated candidates picked g = some (result, g')) :
    result.Nodup ∧ result.length = picked.length + candidates.length := by
  induction candidates generalizing picked g with
  | nil =>
      cases Draw.pure_eq_some_iff.mp ends
      exact ⟨distinct, rfl⟩
  | cons candidate rest ih =>
      obtain ⟨before_rest, ascending_rest⟩ := List.pairwise_cons.mp ascending
      have fresh : candidate ∉ picked := fun member =>
        Fin.lt_irrefl _ (below candidate member candidate List.mem_cons_self)
      obtain ⟨added, next, middle, new, bounded, perm, continues⟩ :=
        exists_of_standInFrom_cons fresh ends
      have distinct_next : next.Nodup := perm.nodup_iff.mpr (List.nodup_cons.mpr ⟨new, distinct⟩)
      have below_next : ∀ number ∈ next, ∀ later ∈ rest, number < later := by
        intro number member later after
        rcases List.mem_cons.mp (perm.mem_iff.mp member) with rfl | earlier
        · exact Nat.lt_of_le_of_lt bounded (before_rest later after)
        · exact below number earlier later (List.mem_cons_of_mem candidate after)
      obtain ⟨distinct_result, length_eq⟩ := ih ascending_rest distinct_next below_next continues
      constructor
      · exact distinct_result
      · rw [length_eq, perm.length_eq, List.length_cons, List.length_cons, Nat.add_right_comm,
          Nat.add_assoc]

theorem distinct_of_standIn (bound : amount ≤ n) {picked : List (Fin n)}
    (ends : standIn redraws amount g = some (picked, g')) :
    picked.Nodup ∧ picked.length = amount := by
  have ascending : ((List.finRange n).drop (n - amount)).Pairwise (· < ·) :=
    (List.pairwise_lt_finRange n).sublist (List.drop_sublist _ _)
  have count : ((List.finRange n).drop (n - amount)).length = amount := by
    rw [List.length_drop, List.length_finRange]
    omega
  have none_yet : ∀ number ∈ ([] : List (Fin n)),
      ∀ candidate ∈ (List.finRange n).drop (n - amount), number < candidate := by
    intro number member
    cases member
  have from_none : ∀ {repeated : Repeated} {result : List (Fin n)} {middle last : γ},
      standInFrom redraws repeated ((List.finRange n).drop (n - amount)) [] middle =
        some (result, last) → result.Nodup ∧ result.length = amount := by
    intro repeated result middle last picks
    obtain ⟨distinct, length_eq⟩ :=
      distinct_of_standInFrom ascending List.nodup_nil none_yet picks
    rw [List.length_nil, Nat.zero_add, count] at length_eq
    exact ⟨distinct, length_eq⟩
  unfold standIn at ends
  by_cases small : amount < 50
  · rw [if_pos small] at ends
    exact from_none ends
  · rw [if_neg small] at ends
    obtain ⟨built, middle, builds, rest⟩ := Draw.bind_eq_some_iff.mp ends
    obtain ⟨shuffled, last, shuffles, finish⟩ := Draw.bind_eq_some_iff.mp rest
    cases Draw.pure_eq_some_iff.mp finish
    have perm : shuffled.toList.Perm built := perm_of_shuffle shuffles
    obtain ⟨distinct, length_eq⟩ := from_none builds
    exact ⟨perm.nodup_iff.mpr distinct, perm.length_eq.trans length_eq⟩

theorem not_mem_of_freshNumber {positive : 0 < n} {picked : List (Fin n)} {repeats : Nat}
    {number : Fin n}
    (ends : freshNumber redraws positive picked repeats g = some (number, g')) :
    number ∉ picked := by
  induction repeats generalizing g with
  | zero => cases ends
  | succ repeats ih =>
      obtain ⟨drawn, middle, _, continues⟩ := Draw.bind_eq_some_iff.mp ends
      by_cases again : drawn ∈ picked
      · rw [if_pos again] at continues
        exact ih continues
      · rw [if_neg again] at continues
        cases Draw.pure_eq_some_iff.mp continues
        exact again

theorem distinct_of_rejecting {positive : 0 < n} {picked result : List (Fin n)}
    (distinct : picked.Nodup)
    (ends : rejecting redraws positive amount picked g = some (result, g')) :
    result.Nodup ∧ result.length = picked.length + amount := by
  induction amount generalizing picked g with
  | zero =>
      cases Draw.pure_eq_some_iff.mp ends
      exact ⟨distinct, rfl⟩
  | succ amount ih =>
      obtain ⟨number, middle, draws, continues⟩ := Draw.bind_eq_some_iff.mp ends
      have new := not_mem_of_freshNumber draws
      have perm := List.perm_append_singleton number picked
      have distinct_next := perm.nodup_iff.mpr (List.nodup_cons.mpr ⟨new, distinct⟩)
      obtain ⟨distinct_result, length_eq⟩ := ih distinct_next continues
      constructor
      · exact distinct_result
      · rw [length_eq, perm.length_eq, List.length_cons, Nat.add_assoc, Nat.add_comm 1]

theorem distinct_of_sample {bound : amount ≤ n} {picked : List (Fin n)}
    (ends : sample redraws amount bound g = some (picked, g')) :
    picked.Nodup ∧ picked.length = amount := by
  unfold sample at ends
  split at ends
  · split at ends
    · exact distinct_of_inPlace ends
    · exact distinct_of_standIn bound ends
  · split at ends
    · exact distinct_of_inPlace ends
    · split at ends
      · obtain ⟨distinct, length_eq⟩ := distinct_of_rejecting List.nodup_nil ends
        rw [List.length_nil, Nat.zero_add] at length_eq
        exact ⟨distinct, length_eq⟩
      · omega

end BinaryQuadratic.Sample
