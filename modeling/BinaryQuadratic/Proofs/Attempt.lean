import BinaryQuadratic.Random.Generator

set_option autoImplicit false

/-! How an attempt with random draws comes to a result: each part in turn, with the generator that
the part before left behind. -/

namespace BinaryQuadratic.Attempt

variable {ε γ β δ : Type} {action : ExceptT ε (Draw γ) β} {next : β → ExceptT ε (Draw γ) δ} {g g' : γ}

theorem pure_eq_some_iff {value : β} {result : Except ε β × γ} :
    (pure value : ExceptT ε (Draw γ) β) g = some result ↔ result = (.ok value, g) := by
  change some (Except.ok value, g) = some result ↔ _
  rw [Option.some.injEq, eq_comm]

theorem bind_of_none (ends : action g = none) : (action >>= next) g = none := by
  change Option.bind (action g) _ = none
  rw [ends]
  rfl

theorem bind_of_error {failure : ε} (ends : action g = some (.error failure, g')) :
    (action >>= next) g = some (.error failure, g') := by
  change Option.bind (action g) _ = _
  rw [ends]
  rfl

theorem bind_of_ok {value : β} (ends : action g = some (.ok value, g')) :
    (action >>= next) g = next value g' := by
  change Option.bind (action g) _ = _
  rw [ends]
  rfl

theorem map_of_ok {f : β → δ} {value : β} (ends : action g = some (.ok value, g')) :
    (f <$> action) g = some (.ok (f value), g') := by
  rw [← bind_pure_comp, bind_of_ok ends]
  rfl

theorem bind_eq_ok_iff {value : δ} :
    (action >>= next) g = some (.ok value, g') ↔
      ∃ part middle, action g = some (.ok part, middle) ∧
        next part middle = some (.ok value, g') := by
  cases ends : action g with
  | none => simp [bind_of_none ends]
  | some result =>
      rcases result with ⟨outcome, middle⟩
      cases outcome with
      | error failure => simp [bind_of_error ends]
      | ok part =>
          rw [bind_of_ok ends]
          constructor
          · intro rest
            exact ⟨part, middle, rfl, rest⟩
          · rintro ⟨_, _, same, rest⟩
            cases same
            exact rest

theorem bind_pure_eq_some_iff {finish : β → δ} {result : Except ε δ × γ} :
    (action >>= fun value => (pure (finish value) : ExceptT ε (Draw γ) δ)) g = some result ↔
      ∃ inner, action g = some inner ∧ result = (inner.1.map finish, inner.2) := by
  cases ends : action g with
  | none => simp [bind_of_none ends]
  | some inner =>
      rcases inner with ⟨outcome, middle⟩
      cases outcome with
      | error failure => simp [bind_of_error ends, Except.map, eq_comm]
      | ok part => simp [bind_of_ok ends, pure_eq_some_iff, Except.map]

theorem lift_of_some {action : Draw γ β} {g g' : γ} {value : β}
    (ends : action g = some (value, g')) :
    (liftM action : ExceptT ε (Draw γ) β) g = some (.ok value, g') := by
  change Option.bind (action g) _ = _
  rw [ends]
  rfl

theorem lift_of_none {action : Draw γ β} {g : γ} (ends : action g = none) :
    (liftM action : ExceptT ε (Draw γ) β) g = none := by
  change Option.bind (action g) _ = _
  rw [ends]
  rfl

theorem lift_eq_ok_iff {action : Draw γ β} {g g' : γ} {value : β} :
    (liftM action : ExceptT ε (Draw γ) β) g = some (.ok value, g') ↔
      action g = some (value, g') := by
  cases ends : action g with
  | none => simp [lift_of_none ends]
  | some result => simp [lift_of_some ends, Prod.ext_iff]

theorem liftExcept_ok (value : β) :
    (liftExcept (.ok value : Except ε β) : ExceptT ε (Draw γ) β) = pure value :=
  rfl

theorem liftExcept_of_ok {check : Except ε β} {value : β} (passes : check = .ok value) (g : γ) :
    (liftExcept check : ExceptT ε (Draw γ) β) g = some (.ok value, g) := by
  rw [passes]
  rfl

theorem liftExcept_of_error {check : Except ε β} {failure : ε} (fails : check = .error failure)
    (g : γ) : (liftExcept check : ExceptT ε (Draw γ) β) g = some (.error failure, g) := by
  rw [fails]
  rfl

theorem liftExcept_eq_ok_iff {check : Except ε β} {g g' : γ} {value : β} :
    (liftExcept check : ExceptT ε (Draw γ) β) g = some (.ok value, g') ↔
      check = .ok value ∧ g = g' := by
  cases check with
  | error failure =>
      change some (Except.error failure, g) = some (Except.ok value, g') ↔ _
      simp
  | ok checked =>
      change some (Except.ok checked, g) = some (Except.ok value, g') ↔ _
      simp

theorem adapt_eq_ok_iff {ε' : Type} {change : ε → ε'} {value : β} :
    ExceptT.adapt change action g = some (.ok value, g') ↔ action g = some (.ok value, g') := by
  change Option.bind (action g) _ = _ ↔ _
  cases action g with
  | none => simp
  | some result =>
      rcases result with ⟨outcome, middle⟩
      cases outcome with
      | error failure =>
          change some (Except.error (change failure), middle) = some (Except.ok value, g') ↔ _
          simp
      | ok part =>
          change some (Except.ok part, middle) = some (Except.ok value, g') ↔ _
          simp

theorem adapt_map {ε' : Type} (change : ε → ε') (f : β → δ) (action : ExceptT ε (Draw γ) β) :
    ExceptT.adapt change (f <$> action) = f <$> ExceptT.adapt change action := by
  have swap : ∀ result : Except ε β,
      (result.map f).mapError change = (result.mapError change).map f := by
    intro result
    cases result with
    | error failure => rfl
    | ok value => rfl
  apply ExceptT.ext
  rw [ExceptT.run_map]
  change Except.mapError change <$> (f <$> action).run =
    Except.map f <$> Except.mapError change <$> action.run
  rw [ExceptT.run_map, ← comp_map, ← comp_map]
  exact map_congr swap

/-- A result that is known by what is reported of it. -/
theorem exists_ok_of_report {run : Option (Except ε β × γ)} {report : β → δ} {value : δ}
    (reported : (run.map fun result => result.1.toOption.map report) = some (some value)) :
    ∃ found g', run = some (.ok found, g') ∧ report found = value := by
  cases run with
  | none => cases reported
  | some result =>
      rcases result with ⟨outcome, g'⟩
      cases outcome with
      | error failure => cases reported
      | ok found => exact ⟨found, g', rfl, Option.some.inj (Option.some.inj reported)⟩

end BinaryQuadratic.Attempt

namespace BinaryQuadratic.Draw

variable {γ β δ : Type} {g : γ}

theorem pure_eq_some_iff {value : β} {result : β × γ} :
    (pure value : Draw γ β) g = some result ↔ result = (value, g) := by
  change some (value, g) = some result ↔ _
  rw [Option.some.injEq, eq_comm]

theorem bind_eq_some_iff {action : Draw γ β} {next : β → Draw γ δ} {result : δ × γ} :
    (action >>= next) g = some result ↔
      ∃ part middle, action g = some (part, middle) ∧ next part middle = some result := by
  change Option.bind (action g) _ = _ ↔ _
  cases action g with
  | none => simp
  | some drawn =>
      rcases drawn with ⟨part, middle⟩
      constructor
      · intro rest
        exact ⟨part, middle, rfl, rest⟩
      · rintro ⟨_, _, same, rest⟩
        cases same
        exact rest

end BinaryQuadratic.Draw
