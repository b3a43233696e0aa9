import BinaryQuadratic.Tabu.Search

set_option autoImplicit false

/-! What a scan finds, said of the list of the variables that it examines. -/

namespace BinaryQuadratic.SearchState

variable {α : Type} [Coefficient α] {q : Qubo α} {n : Nat}

def candidate (current : Tracked q n) (v : Fin n) : α := current.energy + current.costs.get v

theorem energy_flip (current : Tracked q n) (v : Fin n) :
    (current.flip v).energy = candidate current v := rfl

/-- The variables that a scan examines: those not forbidden, up to the first that beats the best. -/
def examined (tabu : TabuList n) (current : Tracked q n) (best : α) : List (Fin n) → List (Fin n)
  | [] => []
  | v :: rest =>
    if tabu.forbids v then examined tabu current best rest
    else if best < candidate current v then [v]
    else v :: examined tabu current best rest

theorem examined_eq_nil_iff (tabu : TabuList n) (current : Tracked q n) (best : α)
    (order : List (Fin n)) :
    examined tabu current best order = [] ↔ ∀ v ∈ order, tabu.forbids v = true := by
  induction order with
  | nil => simp [examined]
  | cons v rest ih =>
      cases forbidden : tabu.forbids v with
      | true => simp [examined, forbidden, ih]
      | false =>
          by_cases better : best < candidate current v
          · simp [examined, forbidden, better]
          · simp [examined, forbidden, better]

/-- What a scan examines is the first part of the free variables in the order. -/
theorem examined_isPrefix (tabu : TabuList n) (current : Tracked q n) (best : α)
    (order : List (Fin n)) :
    examined tabu current best order <+: order.filter fun v => !tabu.forbids v := by
  induction order with
  | nil => exact List.prefix_rfl
  | cons v rest ih =>
      unfold examined
      cases forbidden : tabu.forbids v with
      | true =>
          rw [if_pos rfl, List.filter_cons_of_neg (by simp [forbidden])]
          exact ih
      | false =>
          rw [if_neg Bool.false_ne_true, List.filter_cons_of_pos (by simp [forbidden])]
          by_cases better : best < candidate current v
          · rw [if_pos better]
            exact List.cons_prefix_cons.mpr ⟨rfl, List.nil_prefix⟩
          · rw [if_neg better]
            exact List.cons_prefix_cons.mpr ⟨rfl, ih⟩

theorem examined_eq_filter {tabu : TabuList n} {current : Tracked q n} {best : α}
    {order : List (Fin n)}
    (misses : ∀ u ∈ examined tabu current best order, ¬best < candidate current u) :
    examined tabu current best order = order.filter fun v => !tabu.forbids v := by
  induction order with
  | nil => rfl
  | cons v rest ih =>
      unfold examined at misses ⊢
      cases forbidden : tabu.forbids v with
      | true =>
          rw [forbidden, if_pos rfl] at misses
          rw [if_pos rfl, List.filter_cons_of_neg (by simp [forbidden])]
          exact ih misses
      | false =>
          rw [forbidden, if_neg Bool.false_ne_true] at misses
          rw [if_neg Bool.false_ne_true, List.filter_cons_of_pos (by simp [forbidden])]
          by_cases better : best < candidate current v
          · rw [if_pos better] at misses
            exact absurd better (misses v List.mem_cons_self)
          · rw [if_neg better] at misses ⊢
            rw [ih fun u member => misses u (List.mem_cons_of_mem v member)]

variable {tabu : TabuList n} {current : Tracked q n} {best : α}

def nearest (current : Tracked q n) (held : Option (Fin n × α)) (seen : List (Fin n)) :
    Option (Fin n × α) :=
  seen.foldl (fun held v => nearer held v (candidate current v)) held

theorem nearer_ne_none (held : Option (Fin n × α)) (v : Fin n) (energy : α) :
    nearer held v energy ≠ none := by
  cases held with
  | none => exact Option.some_ne_none _
  | some most =>
      unfold nearer
      by_cases more : most.2 < energy
      · simp only [if_pos more]
        exact Option.some_ne_none _
      · simp only [if_neg more]
        exact Option.some_ne_none _

theorem nearest_ne_none {held : Option (Fin n × α)} (present : held ≠ none) (seen : List (Fin n)) :
    nearest current held seen ≠ none := by
  induction seen generalizing held with
  | nil => exact present
  | cons v rest ih => exact ih (nearer_ne_none held v _)

theorem nearest_eq_none_iff (seen : List (Fin n)) :
    nearest current none seen = none ↔ seen = [] := by
  cases seen with
  | nil => simp [nearest]
  | cons v rest =>
      have present : nearest current none (v :: rest) ≠ none :=
        nearest_ne_none (nearer_ne_none none v (candidate current v)) rest
      simp [present]

theorem nearer_eq_some {held : Option (Fin n × α)} {u v : Fin n} {energy most : α}
    (found : nearer held u energy = some (v, most)) :
    held = some (v, most) ∨ (v = u ∧ most = energy) := by
  cases held with
  | none =>
      cases found
      exact Or.inr ⟨rfl, rfl⟩
  | some before =>
      unfold nearer at found
      by_cases more : before.2 < energy
      · simp only [if_pos more] at found
        cases found
        exact Or.inr ⟨rfl, rfl⟩
      · simp only [if_neg more] at found
        exact Or.inl found

theorem nearest_eq_some {held : Option (Fin n × α)} {seen : List (Fin n)} {v : Fin n} {most : α}
    (found : nearest current held seen = some (v, most)) :
    held = some (v, most) ∨ (v ∈ seen ∧ most = candidate current v) := by
  induction seen generalizing held with
  | nil => exact Or.inl found
  | cons u rest ih =>
      rcases ih found with first | ⟨later, value⟩
      · rcases nearer_eq_some first with before | ⟨same, value⟩
        · exact Or.inl before
        · subst same
          exact Or.inr ⟨List.mem_cons_self, value⟩
      · exact Or.inr ⟨List.mem_cons_of_mem u later, value⟩

/-- A scan stops at the last variable it examines, the only one that beats the best, or it examines
every free variable and returns the nearest miss. Each variable examined is one unit of effort. -/
theorem scan_spec (tabu : TabuList n) (current : Tracked q n) (best : α) (order : List (Fin n))
    (held : Option (Fin n × α)) (effort : Effort) :
    (∃ passed v, examined tabu current best order = passed ++ [v] ∧
      best < candidate current v ∧ (∀ u ∈ passed, ¬best < candidate current u) ∧
      scan tabu current best order held effort =
        .improving v ⟨effort.total + (examined tabu current best order).length⟩) ∨
    ((∀ u ∈ examined tabu current best order, ¬best < candidate current u) ∧
      scan tabu current best order held effort =
        .exhausted (nearest current held (examined tabu current best order))
          ⟨effort.total + (examined tabu current best order).length⟩) := by
  induction order generalizing held effort with
  | nil =>
      right
      exact ⟨fun u member => absurd member List.not_mem_nil, rfl⟩
  | cons v rest ih =>
      unfold scan examined
      cases forbidden : tabu.forbids v with
      | true => exact ih held effort
      | false =>
          by_cases better : best < candidate current v
          · left
            refine ⟨[], v, ?_, better, fun u member => absurd member List.not_mem_nil, ?_⟩
            · simp [better]
            · unfold candidate at better
              simp [candidate, better, Effort.tick]
          · have shift : effort.tick.total + (examined tabu current best rest).length =
                effort.total + ((examined tabu current best rest).length + 1) := by
              change effort.total + 1 + _ = _
              omega
            have later := ih (nearer held v (candidate current v)) effort.tick
            rw [shift] at later
            have worse : ¬best < current.energy + current.costs.get v := better
            simp only [Bool.false_eq_true, if_false, if_neg better, if_neg worse, List.length_cons]
            rcases later with ⟨passed, u, listed, beats, misses, ends⟩ | ⟨misses, ends⟩
            · left
              refine ⟨v :: passed, u, ?_, beats, ?_, ends⟩
              · rw [listed, List.cons_append]
              · intro w member
                rcases List.mem_cons.mp member with same | before
                · rw [same]
                  exact better
                · exact misses w before
            · right
              refine ⟨?_, ends⟩
              intro w member
              rcases List.mem_cons.mp member with same | before
              · rw [same]
                exact better
              · exact misses w before

section Found

variable {order : List (Fin n)} {effort left : Effort}

theorem of_scan_improving {v : Fin n}
    (found : scan tabu current best order none effort = .improving v left) :
    best < candidate current v ∧ v ∈ examined tabu current best order ∧
      ∀ u ∈ examined tabu current best order, u = v ∨ ¬best < candidate current u := by
  rcases scan_spec tabu current best order none effort with
    ⟨passed, u, listed, beats, misses, ends⟩ | ⟨misses, ends⟩
  · rw [ends] at found
    cases found
    rw [listed]
    refine ⟨beats, List.mem_append_right passed List.mem_cons_self, ?_⟩
    intro w member
    rcases List.mem_append.mp member with before | last
    · exact Or.inr (misses w before)
    · exact Or.inl (List.mem_singleton.mp last)
  · rw [ends] at found
    cases found

theorem of_scan_exhausted {held : Option (Fin n × α)}
    (found : scan tabu current best order none effort = .exhausted held left) :
    held = nearest current none (examined tabu current best order) ∧
      ∀ u ∈ examined tabu current best order, ¬best < candidate current u := by
  rcases scan_spec tabu current best order none effort with
    ⟨passed, u, listed, beats, misses, ends⟩ | ⟨misses, ends⟩
  · rw [ends] at found
    cases found
  · rw [ends] at found
    cases found
    exact ⟨rfl, misses⟩

theorem mem_examined_of_scan {v : Fin n} {most : α}
    (found : scan tabu current best order none effort = .exhausted (some (v, most)) left) :
    v ∈ examined tabu current best order := by
  have nearest := (of_scan_exhausted found).1.symm
  rcases nearest_eq_some nearest with absent | ⟨member, _⟩
  · cases absent
  · exact member

/-- The scan comes back empty exactly when every variable in the order is forbidden. -/
theorem scan_empty_iff :
    (∃ left, scan tabu current best order none effort = .exhausted none left) ↔
      ∀ v ∈ order, tabu.forbids v = true := by
  rw [← examined_eq_nil_iff tabu current best order]
  constructor
  · rintro ⟨left, found⟩
    exact (nearest_eq_none_iff _).mp (of_scan_exhausted found).1.symm
  · intro empty
    rcases scan_spec tabu current best order none effort with
      ⟨passed, u, listed, beats, misses, ends⟩ | ⟨misses, ends⟩
    · rw [empty] at listed
      exact absurd listed.symm (List.append_ne_nil_of_right_ne_nil passed (List.cons_ne_nil u []))
    · rw [empty] at ends
      exact ⟨_, ends⟩

end Found

end BinaryQuadratic.SearchState
