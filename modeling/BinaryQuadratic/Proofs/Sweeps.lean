import BinaryQuadratic.Proofs.Climb

set_option autoImplicit false

/-! The sweeps of a local search and the toggles that they make. A local search goes from sweep to
sweep as long as each of them toggles something; after that it is out of sweeps, out of random words,
past the greatest count, or at its end. -/

namespace BinaryQuadratic

variable {α γ : Type} [Coefficient α] [Generator γ] {q : Qubo α} {n : Nat}

theorem Effort.checked_eq_ok_iff (effort : Effort) :
    effort.checked = .ok () ↔ effort.total ≤ greatestWord := by
  unfold checked
  by_cases within : effort.total ≤ greatestWord
  · exact iff_of_true (if_pos within) within
  · rw [if_neg within]
    exact iff_of_false (fun absent => by cases absent) within

namespace Tracked

/-- The variables toggled by a local search that looks at the variables of a list in turn. -/
def toggles (s : Tracked q n) : List (Fin n) → List (Fin n)
  | [] => []
  | v :: rest => if 0 < s.costs.get v then v :: (s.flip v).toggles rest else s.toggles rest

theorem toggles_cons_of_pos {s : Tracked q n} {v : Fin n} (raises : 0 < s.costs.get v)
    (rest : List (Fin n)) : s.toggles (v :: rest) = v :: (s.flip v).toggles rest :=
  if_pos raises

theorem toggles_cons_of_not_pos {s : Tracked q n} {v : Fin n} (lowers : ¬0 < s.costs.get v)
    (rest : List (Fin n)) : s.toggles (v :: rest) = s.toggles rest :=
  if_neg lowers

theorem toggles_eq_nil_iff (s : Tracked q n) (seen : List (Fin n)) :
    s.toggles seen = [] ↔ ∀ v ∈ seen, ¬0 < s.costs.get v := by
  induction seen with
  | nil => simp [toggles]
  | cons v rest ih =>
      by_cases raises : 0 < s.costs.get v
      · simp [toggles_cons_of_pos raises, raises]
      · simp [toggles_cons_of_not_pos raises, raises, ih]

theorem toggles_append (s : Tracked q n) (first second : List (Fin n)) :
    s.toggles (first ++ second) =
      s.toggles first ++ ((s.toggles first).foldl flip s).toggles second := by
  induction first generalizing s with
  | nil => rfl
  | cons v rest ih =>
      by_cases raises : 0 < s.costs.get v
      · rw [List.cons_append, toggles_cons_of_pos raises, toggles_cons_of_pos raises, ih]
        rfl
      · rw [List.cons_append, toggles_cons_of_not_pos raises, toggles_cons_of_not_pos raises, ih]

theorem sublist_toggles (s : Tracked q n) (seen : List (Fin n)) : (s.toggles seen).Sublist seen := by
  induction seen generalizing s with
  | nil => exact List.Sublist.refl []
  | cons v rest ih =>
      by_cases raises : 0 < s.costs.get v
      · rw [toggles_cons_of_pos raises]
        exact (ih (s.flip v)).cons_cons v
      · rw [toggles_cons_of_not_pos raises]
        exact (ih s).cons v

/-- A variable that is looked at once is toggled just if that raises the energy at that moment. -/
theorem mem_toggles_iff (s : Tracked q n) {passed rest : List (Fin n)} {v : Fin n}
    (distinct : (passed ++ v :: rest).Nodup) :
    v ∈ s.toggles (passed ++ v :: rest) ↔
      0 < ((s.toggles passed).foldl flip s).costs.get v := by
  obtain ⟨_, tail_distinct, apart⟩ := List.nodup_append.mp distinct
  have unseen : v ∉ s.toggles passed := fun member =>
    apart v ((s.sublist_toggles passed).subset member) v List.mem_cons_self rfl
  have no_more : ∀ later : Tracked q n, v ∉ later.toggles rest := fun later member =>
    (List.nodup_cons.mp tail_distinct).1 ((later.sublist_toggles rest).subset member)
  rw [toggles_append, List.mem_append, or_iff_right unseen]
  by_cases raises : 0 < ((s.toggles passed).foldl flip s).costs.get v
  · rw [toggles_cons_of_pos raises]
    exact iff_of_true List.mem_cons_self raises
  · rw [toggles_cons_of_not_pos raises]
    exact iff_of_false (no_more _) raises

end Tracked

namespace Walk

theorem current_foldl_examine (walk : Walk q n) (seen : List (Fin n)) :
    (seen.foldl examine walk).current =
      (walk.current.toggles seen).foldl Tracked.flip walk.current := by
  induction seen generalizing walk with
  | nil => rfl
  | cons v rest ih =>
      rw [List.foldl_cons, ih]
      unfold examine
      by_cases raises : 0 < walk.current.costs.get v
      · rw [if_pos raises, Tracked.toggles_cons_of_pos raises]
        rfl
      · rw [if_neg raises, Tracked.toggles_cons_of_not_pos raises]

theorem total_foldl_examine (walk : Walk q n) (seen : List (Fin n)) :
    (seen.foldl examine walk).effort.total = walk.effort.total + seen.length := by
  induction seen generalizing walk with
  | nil => rfl
  | cons v rest ih =>
      have ticked : (walk.examine v).effort = walk.effort.tick := by
        unfold examine
        split <;> rfl
      rw [List.foldl_cons, ih, ticked, List.length_cons]
      change walk.effort.total + 1 + rest.length = _
      omega

theorem snd_foldl_visit (order : List (Fin n)) (walk : Walk q n) (toggled : List (Fin n)) :
    (order.foldl visit (walk, toggled)).2 = (walk.current.toggles order).reverse ++ toggled := by
  induction order generalizing walk toggled with
  | nil => rfl
  | cons v rest ih =>
      rw [List.foldl_cons]
      by_cases raises : 0 < walk.current.costs.get v
      · rw [visit_of_pos raises, ih, Tracked.toggles_cons_of_pos raises, List.reverse_cons,
          List.append_assoc]
        rfl
      · rw [visit_of_not_pos raises, ih, Tracked.toggles_cons_of_not_pos raises]

theorem snd_sweep (walk : Walk q n) (order : List (Fin n)) :
    (walk.sweep order).2 = (walk.current.toggles order).reverse := by
  unfold sweep
  rw [snd_foldl_visit, List.append_nil]

theorem snd_sweep_eq_nil_iff (walk : Walk q n) (order : List (Fin n)) :
    (walk.sweep order).2 = [] ↔ walk.current.toggles order = [] := by
  rw [snd_sweep, List.reverse_eq_nil_iff]

theorem current_sweep (walk : Walk q n) (order : List (Fin n)) :
    (walk.sweep order).1.current =
      (walk.current.toggles order).foldl Tracked.flip walk.current := by
  rw [fst_sweep, current_foldl_examine]

/-- Sweeps that each toggle something, from an order, a walk and a generator to those that the next
sweep starts from. -/
inductive Sweeps (redraws : Nat) : Vector (Fin n) n → Walk q n → γ → List (Vector (Fin n) n) →
    Vector (Fin n) n → Walk q n → γ → Prop
  | none {order : Vector (Fin n) n} {walk : Walk q n} {g : γ} :
      Sweeps redraws order walk g [] order walk g
  | onward {order swept order' : Vector (Fin n) n} {walk walk' : Walk q n} {g g' g'' : γ}
      {orders : List (Vector (Fin n) n)}
      (shuffled : shuffle redraws order g = some (swept, g'))
      (counted : (walk.sweep swept.toList).1.effort.checked = .ok ())
      (some_toggled : (walk.sweep swept.toList).2 ≠ [])
      (rest : Sweeps redraws swept (walk.sweep swept.toList).1 g' orders order' walk' g'') :
      Sweeps redraws order walk g (swept :: orders) order' walk' g''

namespace Sweeps

variable {redraws : Nat} {order order' : Vector (Fin n) n} {walk walk' : Walk q n} {g g' : γ}
  {orders : List (Vector (Fin n) n)}

theorem walk_eq (sweeps : Sweeps redraws order walk g orders order' walk' g') :
    walk' = (Climbs.examined orders).foldl examine walk := by
  unfold Climbs.examined
  induction sweeps with
  | none => rfl
  | onward shuffled counted some_toggled rest ih =>
      rw [ih, fst_sweep, List.flatMap_cons, List.foldl_append]

theorem length_le_toggles (sweeps : Sweeps redraws order walk g orders order' walk' g') :
    orders.length ≤ (walk.current.toggles (Climbs.examined orders)).length := by
  unfold Climbs.examined
  induction sweeps with
  | none => exact Nat.zero_le _
  | @onward _ swept _ walk _ _ _ _ orders shuffled counted some_toggled rest ih =>
      have some_made : walk.current.toggles swept.toList ≠ [] :=
        (not_congr (snd_sweep_eq_nil_iff walk swept.toList)).mp some_toggled
      have made : 0 < (walk.current.toggles swept.toList).length := List.length_pos_iff.mpr some_made
      rw [fst_sweep, current_foldl_examine] at ih
      rw [List.flatMap_cons, Tracked.toggles_append, List.length_append, List.length_cons]
      omega

theorem length_examined (orders : List (Vector (Fin n) n)) :
    (Climbs.examined orders).length = n * orders.length := by
  unfold Climbs.examined
  induction orders with
  | nil => rfl
  | cons order rest ih =>
      rw [List.flatMap_cons, List.length_append, ih, Vector.length_toList, List.length_cons,
        Nat.mul_succ, Nat.add_comm]

end Sweeps

theorem Climbs.total_le_greatestWord {redraws : Nat} {order : Vector (Fin n) n} {walk last : Walk q n}
    {g g' : γ} {orders : List (Vector (Fin n) n)}
    (climbs : Climbs redraws order walk g orders last g') : last.effort.total ≤ greatestWord := by
  induction climbs with
  | still shuffled counted none_toggled => exact (Effort.checked_eq_ok_iff _).mp counted
  | onward shuffled counted some_toggled rest ih => exact ih

/-- A local search that comes to its end has made sweeps that toggle something, and then one that
toggles nothing. -/
theorem Climbs.exists_sweeps {redraws : Nat} {order : Vector (Fin n) n} {walk last : Walk q n}
    {g g' : γ} {orders : List (Vector (Fin n) n)}
    (climbs : Climbs redraws order walk g orders last g') :
    ∃ before order' walk' g₁ swept, orders = before ++ [swept] ∧
      Sweeps redraws order walk g before order' walk' g₁ ∧
      shuffle redraws order' g₁ = some (swept, g') ∧
      (walk'.sweep swept.toList).2 = [] ∧ last = (walk'.sweep swept.toList).1 := by
  induction climbs with
  | still shuffled counted none_toggled =>
      exact ⟨[], _, _, _, _, rfl, .none, shuffled, none_toggled, rfl⟩
  | onward shuffled counted some_toggled rest ih =>
      obtain ⟨before, order', walk', g₁, swept, rfl, sweeps, drawn, none_toggled, ends⟩ := ih
      exact ⟨_ :: before, order', walk', g₁, swept, rfl,
        .onward shuffled counted some_toggled sweeps, drawn, none_toggled, ends⟩

/-! ### Every way in which a local search can go -/

theorem checked_cases (effort : Effort) :
    effort.checked = .ok () ∨
      greatestWord < effort.total ∧ effort.checked = .error ⟨.countOverflow, .zero⟩ := by
  unfold Effort.checked
  by_cases counted : effort.total ≤ greatestWord
  · exact Or.inl (if_pos counted)
  · exact Or.inr ⟨Nat.lt_of_not_le counted, if_neg counted⟩

/-- It makes as many sweeps as it may, or fewer and then comes to a shuffle without a result, a count
past the greatest word, or a sweep that toggles nothing. -/
theorem climbFrom_cases (redraws sweeps : Nat) (order : Vector (Fin n) n) (walk : Walk q n) (g : γ) :
    ∃ orders order' walk' g', Sweeps redraws order walk g orders order' walk' g' ∧
      (climbFrom redraws sweeps order walk g = none ∧
          (orders.length = sweeps ∨ shuffle redraws order' g' = none) ∨
        ∃ swept g'', shuffle redraws order' g' = some (swept, g'') ∧
          (climbFrom redraws sweeps order walk g = some (.ok (walk'.sweep swept.toList).1, g'') ∨
            climbFrom redraws sweeps order walk g = some (.error ⟨.countOverflow, .zero⟩, g'') ∧
              greatestWord < (walk'.sweep swept.toList).1.effort.total)) := by
  induction sweeps generalizing order walk g with
  | zero => exact ⟨[], order, walk, g, .none, Or.inl ⟨rfl, Or.inl rfl⟩⟩
  | succ sweeps ih =>
      cases drawn : shuffle redraws order g with
      | none =>
          exact ⟨[], order, walk, g, .none, Or.inl ⟨climbFrom_of_undrawn drawn, Or.inr drawn⟩⟩
      | some result =>
          rcases result with ⟨swept, g₁⟩
          rcases checked_cases (walk.sweep swept.toList).1.effort with counted | ⟨past, broken⟩
          · by_cases toggled : (walk.sweep swept.toList).2 = []
            · exact ⟨[], order, walk, g, .none,
                Or.inr ⟨swept, g₁, drawn, Or.inl (climbFrom_of_still drawn counted toggled)⟩⟩
            · obtain ⟨orders, order', walk', g', rest, ends⟩ :=
                ih swept (walk.sweep swept.toList).1 g₁
              rw [← climbFrom_of_toggled drawn counted toggled] at ends
              refine ⟨swept :: orders, order', walk', g', .onward drawn counted toggled rest, ?_⟩
              rw [List.length_cons, Nat.add_right_cancel_iff]
              exact ends
          · exact ⟨[], order, walk, g, .none,
              Or.inr ⟨swept, g₁, drawn, Or.inr ⟨climbFrom_of_past drawn broken, past⟩⟩⟩

end Walk

end BinaryQuadratic
