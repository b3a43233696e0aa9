import Mathlib.Logic.Relation
import BinaryQuadratic.Limits
import BinaryQuadratic.Proofs.Attempt

set_option autoImplicit false

/-! Repetition as a path of steps. A repetition ends well exactly when a path of steps leads from its
start to a finished state, and a step that stands for several steps may take their place. -/

namespace BinaryQuadratic

variable {σ ε γ : Type} {finished : σ → Bool} {step : σ → ExceptT ε (Draw γ) σ}

/-- A step that a repetition takes, with the generator before and after it. -/
def Advances (finished : σ → Bool) (step : σ → ExceptT ε (Draw γ) σ) (before after : σ × γ) :
    Prop :=
  finished before.1 = false ∧ step before.1 before.2 = some (.ok after.1, after.2)

abbrev Reaches (finished : σ → Bool) (step : σ → ExceptT ε (Draw γ) σ) : σ × γ → σ × γ → Prop :=
  Relation.ReflTransGen (Advances finished step)

theorem Advances.unique {a b c : σ × γ} (first : Advances finished step a b)
    (second : Advances finished step a c) : b = c := by
  have same := first.2.symm.trans second.2
  rw [Option.some.injEq, Prod.mk.injEq, Except.ok.injEq] at same
  exact Prod.ext same.1 same.2

/-- Of two states on the way from the same start, one is on the way from the other. -/
theorem Reaches.total {a b c : σ × γ} (path : Reaches finished step a b)
    (other : Reaches finished step a c) : Reaches finished step b c ∨ Reaches finished step c b :=
  Relation.ReflTransGen.total_of_right_unique (fun _ _ _ => Advances.unique) path other

/-- No step leads on from a finished state. -/
theorem Reaches.eq_of_finished {a b : σ × γ} (path : Reaches finished step a b)
    (ends : finished a.1 = true) : a = b := by
  rcases path.cases_head with same | ⟨_, advance, _⟩
  · exact same
  · rw [advance.1] at ends
    cases ends

/-- Every state on the way to an unfinished one is unfinished. -/
theorem Reaches.unfinished {a b : σ × γ} (path : Reaches finished step a b)
    (goes : finished b.1 = false) : finished a.1 = false := by
  rcases path.cases_head with same | ⟨_, advance, _⟩
  · rw [same]
    exact goes
  · exact advance.1

/-- An unfinished state on the way to a finished one has a next state on that way. -/
theorem Reaches.next_of_unfinished {a b c : σ × γ} (path : Reaches finished step a b)
    (goes : finished b.1 = false) (whole : Reaches finished step a c) (ends : finished c.1 = true) :
    ∃ next, Advances finished step b next ∧ Reaches finished step next c := by
  have apart : finished b.1 ≠ finished c.1 := by
    rw [goes, ends]
    exact Bool.false_ne_true
  rcases Reaches.total path whole with onward | back
  · rcases onward.cases_head with same | ⟨next, advance, rest⟩
    · exact absurd (congrArg (fun state => finished state.1) same) apart
    · exact ⟨next, advance, rest⟩
  · have same := Reaches.eq_of_finished back ends
    exact absurd (congrArg (fun state => finished state.1) same).symm apart

/-- Two finished states that are reached from the same start are the same. -/
theorem Reaches.last_unique {a b c : σ × γ} (path : Reaches finished step a b)
    (other : Reaches finished step a c) (ends : finished b.1 = true) (ends' : finished c.1 = true) :
    b = c := by
  rcases Reaches.total path other with onward | back
  · exact Reaches.eq_of_finished onward ends
  · exact (Reaches.eq_of_finished back ends').symm

/-- What each step between two states keeps holds at the second of them. -/
theorem Reaches.keeps {a b : σ × γ} (path : Reaches finished step a b) (Holds : σ → Prop)
    (kept : ∀ c d, Reaches finished step a c → Advances finished step c d →
      Reaches finished step d b → Holds c.1 → Holds d.1)
    (holds : Holds a.1) : Holds b.1 := by
  have along : ∀ d, Reaches finished step a d → Reaches finished step d b → Holds d.1 := by
    intro d before
    induction before with
    | refl =>
        intro _
        exact holds
    | tail before advance ih =>
        intro rest
        exact kept _ _ before advance rest (ih (rest.head advance))
  exact along b path .refl

/-- Steps on the way to a finished state do not come back to where they started. -/
theorem Reaches.not_again {a b last : σ × γ} (advance : Advances finished step a b)
    (path : Reaches finished step b last) (ends : finished last.1 = true) :
    ¬Reaches finished step b a := by
  intro circle
  have returns : ∀ {c}, Reaches finished step a c → Reaches finished step c a := by
    intro c reached
    induction reached with
    | refl => exact .refl
    | tail _ next ih =>
        rcases ih.cases_head with same | ⟨other, along, rest⟩
        · rw [same] at next
          rw [next.unique advance]
          exact circle
        · rw [next.unique along]
          exact rest
  have same := Reaches.eq_of_finished (returns (path.head advance)) ends
  rw [same, advance.1] at ends
  cases ends

/-- The states that the steps to a finished state are made from, and what is counted on the way. -/
theorem Reaches.exists_befores {start last : σ × γ} (path : Reaches finished step start last)
    (ends : finished last.1 = true) :
    ∃ befores : List (σ × γ), befores.Nodup ∧
      (∀ a, a ∈ befores ↔ Reaches finished step start a ∧ finished a.1 = false) ∧
      ∀ (count : σ → Nat) (counted : σ × γ → Bool),
        (∀ a b, Reaches finished step start a → Advances finished step a b →
          count b.1 = count a.1 + if counted a then 1 else 0) →
        count last.1 = count start.1 + befores.countP counted := by
  induction path using Relation.ReflTransGen.head_induction_on with
  | refl =>
      refine ⟨[], List.nodup_nil, ?_, fun count counted _ => rfl⟩
      intro a
      refine iff_of_false List.not_mem_nil ?_
      rintro ⟨onward, goes⟩
      rw [← Reaches.eq_of_finished onward ends, ends] at goes
      cases goes
  | @head a b advance rest ih =>
      obtain ⟨befores, distinct, members, counts⟩ := ih
      refine ⟨a :: befores, List.nodup_cons.mpr ⟨?_, distinct⟩, ?_, ?_⟩
      · intro again
        exact Reaches.not_again advance rest ends ((members a).mp again).1
      · intro c
        rw [List.mem_cons, members]
        constructor
        · rintro (same | ⟨reached, goes⟩)
          · rw [same]
            exact ⟨.refl, advance.1⟩
          · exact ⟨reached.head advance, goes⟩
        · rintro ⟨reached, goes⟩
          rcases reached.cases_head with same | ⟨b', along, reached⟩
          · exact Or.inl same.symm
          · rw [along.unique advance] at reached
            exact Or.inr ⟨reached, goes⟩
      · intro count counted each
        have later := counts count counted fun c d reached => each c d (reached.head advance)
        have first := each a b .refl advance
        rw [later, first, List.countP_cons]
        omega

namespace repeatUntil

theorem of_finished {s : σ} (ends : finished s = true) (limit : Nat) :
    repeatUntil finished step limit s = pure s := by
  cases limit with
  | zero => exact if_pos ends
  | succ limit => exact if_pos ends

theorem zero_of_unfinished {s : σ} (goes : finished s = false) (g : γ) :
    repeatUntil finished step 0 s g = none := by
  unfold repeatUntil
  rw [goes]
  rfl

theorem succ_of_unfinished {s : σ} (goes : finished s = false) (limit : Nat) :
    repeatUntil finished step (limit + 1) s = step s >>= repeatUntil finished step limit := by
  rw [repeatUntil, goes]
  rfl

theorem succ_of_advances {a b : σ × γ} (advance : Advances finished step a b) (limit : Nat) :
    repeatUntil finished step (limit + 1) a.1 a.2 = repeatUntil finished step limit b.1 b.2 := by
  rw [succ_of_unfinished advance.1, Attempt.bind_of_ok advance.2]

theorem succ_eq_some_iff {s : σ} (goes : finished s = false) {limit : Nat} {g : γ}
    {result : Except ε σ × γ} :
    repeatUntil finished step (limit + 1) s g = some result ↔
      (∃ failure g', step s g = some (.error failure, g') ∧ result = (.error failure, g')) ∨
      ∃ s' g', step s g = some (.ok s', g') ∧
        repeatUntil finished step limit s' g' = some result := by
  rw [succ_of_unfinished goes]
  cases first : step s g with
  | none => simp [Attempt.bind_of_none first]
  | some outcome =>
      rcases outcome with ⟨value, g₁⟩
      cases value with
      | error failure => simp [Attempt.bind_of_error first, and_assoc, eq_comm]
      | ok s₁ => simp [Attempt.bind_of_ok first, and_assoc]

theorem reaches {limit : Nat} {s s' : σ} {g g' : γ}
    (ends : repeatUntil finished step limit s g = some (.ok s', g')) :
    finished s' = true ∧ Reaches finished step (s, g) (s', g') := by
  induction limit generalizing s g with
  | zero =>
      cases state : finished s with
      | false =>
          rw [zero_of_unfinished state] at ends
          cases ends
      | true =>
          rw [of_finished state] at ends
          cases Attempt.pure_eq_some_iff.mp ends
          exact ⟨state, .refl⟩
  | succ limit ih =>
      cases state : finished s with
      | false =>
          rw [succ_of_unfinished state] at ends
          obtain ⟨s₁, g₁, first, rest⟩ := Attempt.bind_eq_ok_iff.mp ends
          obtain ⟨done, path⟩ := ih rest
          exact ⟨done, path.head ⟨state, first⟩⟩
      | true =>
          rw [of_finished state] at ends
          cases Attempt.pure_eq_some_iff.mp ends
          exact ⟨state, .refl⟩

/-- Steps that correspond state by state make repetitions that correspond. -/
theorem map_state {τ : Type} {finished' : τ → Bool} {step' : τ → ExceptT ε (Draw γ) τ} (f : σ → τ)
    (stops : ∀ s, finished' (f s) = finished s) (steps : ∀ s, step' (f s) = f <$> step s)
    (limit : Nat) (s : σ) :
    repeatUntil finished' step' limit (f s) = f <$> repeatUntil finished step limit s := by
  induction limit generalizing s with
  | zero =>
      unfold repeatUntil
      rw [stops]
      cases finished s with
      | true => exact (map_pure f s).symm
      | false => rfl
  | succ limit ih =>
      unfold repeatUntil
      rw [stops]
      cases finished s with
      | true => exact (map_pure f s).symm
      | false => simp only [Bool.false_eq_true, if_false, steps, bind_map_left, map_bind, ih]

/-- A repetition that goes along with another, step by step, until one of the two is finished: it must
be finished when the other is, and may be so before. -/
theorem alongside {τ : Type} {finished' : τ → Bool} {step' : τ → ExceptT ε (Draw γ) τ}
    {R : σ × γ → τ × γ → Prop} {limit : Nat} {a : σ × γ} {b : τ × γ} {last : σ} {g' : γ}
    (stops : ∀ {a b}, R a b → finished a.1 = true → finished' b.1 = true)
    (follows : ∀ {a b a'}, R a b → Advances finished step a a' →
      Reaches finished step a' (last, g') → finished' b.1 = false →
      ∃ b', Advances finished' step' b b' ∧ R a' b')
    (related : R a b) (ends : repeatUntil finished step limit a.1 a.2 = some (.ok last, g')) :
    ∃ a' b', repeatUntil finished' step' limit b.1 b.2 = some (.ok b'.1, b'.2) ∧
      Reaches finished step a a' ∧ Reaches finished step a' (last, g') ∧ R a' b' := by
  induction limit generalizing a b with
  | zero =>
      obtain ⟨done, path⟩ := reaches ends
      cases state : finished a.1 with
      | false =>
          rw [zero_of_unfinished state] at ends
          cases ends
      | true => exact ⟨a, b, by rw [of_finished (stops related state)]; rfl, .refl, path, related⟩
  | succ limit ih =>
      cases state : finished' b.1 with
      | true => exact ⟨a, b, by rw [of_finished state]; rfl, .refl, (reaches ends).2, related⟩
      | false =>
          have goes : finished a.1 = false := by
            cases ahead : finished a.1 with
            | false => rfl
            | true => exact (stops related ahead).symm.trans state
          rw [succ_of_unfinished goes] at ends
          obtain ⟨s₁, g₁, first, rest⟩ := Attempt.bind_eq_ok_iff.mp ends
          have advance : Advances finished step a (s₁, g₁) := ⟨goes, first⟩
          obtain ⟨b₁, alike, related⟩ := follows related advance (reaches rest).2 state
          obtain ⟨a', b', ends', before, after, related⟩ := ih related rest
          rw [succ_of_advances alike]
          exact ⟨a', b', ends', before.head advance, after, related⟩

end repeatUntil

/-! ### How long a repetition lasts -/

section Measure

variable {left : σ → Nat} {start : σ × γ} {limit : Nat}

/-- A repetition whose steps all succeed and each use up some of a measure is over within as many
steps as the measure has at the start. -/
theorem Reaches.exists_repeatUntil_eq_ok
    (goes_on : ∀ a, Reaches finished step start a → finished a.1 = false →
      ∃ b, Advances finished step a b)
    (decreases : ∀ a b, Reaches finished step start a → Advances finished step a b →
      left b.1 < left a.1)
    (enough : left start.1 ≤ limit) :
    ∃ last g, repeatUntil finished step limit start.1 start.2 = some (.ok last, g) := by
  induction limit generalizing start with
  | zero =>
      cases state : finished start.1 with
      | true => exact ⟨start.1, start.2, by rw [repeatUntil.of_finished state]; rfl⟩
      | false =>
          obtain ⟨b, advance⟩ := goes_on start .refl state
          have less := decreases start b .refl advance
          omega
  | succ limit ih =>
      cases state : finished start.1 with
      | true => exact ⟨start.1, start.2, by rw [repeatUntil.of_finished state]; rfl⟩
      | false =>
          obtain ⟨b, advance⟩ := goes_on start .refl state
          have less := decreases start b .refl advance
          rw [repeatUntil.succ_of_advances advance]
          exact ih (fun a path => goes_on a (path.head advance))
            (fun a c path => decreases a c (path.head advance)) (by omega)

/-- A repetition that comes to a finished state is over within as many steps as any measure that
they use up has at the start. -/
theorem Reaches.repeatUntil_eq_ok {last : σ × γ}
    (path : Reaches finished step start last) (ends : finished last.1 = true)
    (decreases : ∀ a b, Reaches finished step start a → Advances finished step a b →
      left b.1 < left a.1)
    (enough : left start.1 ≤ limit) :
    repeatUntil finished step limit start.1 start.2 = some (.ok last.1, last.2) := by
  have goes_on : ∀ a, Reaches finished step start a → finished a.1 = false →
      ∃ b, Advances finished step a b := by
    intro a before goes
    obtain ⟨b, advance, _⟩ := before.next_of_unfinished goes path ends
    exact ⟨b, advance⟩
  obtain ⟨other, g, repeats⟩ := Reaches.exists_repeatUntil_eq_ok goes_on decreases enough
  obtain ⟨ends', path'⟩ := repeatUntil.reaches repeats
  rw [repeats, path.last_unique path' ends ends']

/-- A repetition fails as a step on its way does. -/
theorem Reaches.repeatUntil_eq_error {midway : σ × γ} {failure : ε} {g : γ}
    (path : Reaches finished step start midway) (goes : finished midway.1 = false)
    (fails : step midway.1 midway.2 = some (.error failure, g))
    (decreases : ∀ a b, Reaches finished step start a → Advances finished step a b →
      left b.1 < left a.1)
    (unspent : 0 < left midway.1) (enough : left start.1 ≤ limit) :
    repeatUntil finished step limit start.1 start.2 = some (.error failure, g) := by
  induction limit generalizing start with
  | zero =>
      rcases path.cases_head with same | ⟨b, advance, _⟩
      · rw [same] at enough
        omega
      · have less := decreases start b .refl advance
        omega
  | succ limit ih =>
      rcases path.cases_head with same | ⟨b, advance, rest⟩
      · rw [same, repeatUntil.succ_of_unfinished goes]
        exact Attempt.bind_of_error fails
      · have less := decreases start b .refl advance
        rw [repeatUntil.succ_of_advances advance]
        apply ih rest
        · intro a c path
          exact decreases a c (path.head advance)
        · omega

end Measure

/-! ### Steps that stand for several -/

/-- A result that a repetition has with some limit. -/
def Returns (finished : σ → Bool) (step : σ → ExceptT ε (Draw γ) σ) (start : σ × γ)
    (result : Except ε σ × γ) : Prop :=
  ∃ limit, repeatUntil finished step limit start.1 start.2 = some result

theorem Returns.finished_iff {s : σ} {g : γ} (ends : finished s = true)
    {result : Except ε σ × γ} : Returns finished step (s, g) result ↔ result = (.ok s, g) := by
  simp only [Returns, repeatUntil.of_finished ends, Attempt.pure_eq_some_iff, exists_const]

theorem Returns.of_step {s : σ} {g : γ} (goes : finished s = false) {result : Except ε σ × γ}
    (rest : (∃ failure g', step s g = some (.error failure, g') ∧ result = (.error failure, g')) ∨
      ∃ s' g', step s g = some (.ok s', g') ∧ Returns finished step (s', g') result) :
    Returns finished step (s, g) result := by
  rcases rest with failed | ⟨s', g', first, limit, ends⟩
  · exact ⟨1, (repeatUntil.succ_eq_some_iff goes).mpr (Or.inl failed)⟩
  · exact ⟨limit + 1, (repeatUntil.succ_eq_some_iff goes).mpr (Or.inr ⟨s', g', first, ends⟩)⟩

theorem Reaches.repeatUntil_eq {a b : σ × γ} (path : Reaches finished step a b) {limit : Nat}
    {result : Except ε σ × γ} (ends : repeatUntil finished step limit a.1 a.2 = some result) :
    ∃ left ≤ limit, repeatUntil finished step left b.1 b.2 = some result := by
  induction path with
  | refl => exact ⟨limit, Nat.le_refl limit, ends⟩
  | tail _ advance ih =>
      obtain ⟨left, bound, rest⟩ := ih
      cases left with
      | zero =>
          rw [repeatUntil.zero_of_unfinished advance.1] at rest
          cases rest
      | succ left =>
          rw [repeatUntil.succ_of_advances advance] at rest
          exact ⟨left, Nat.le_of_succ_le bound, rest⟩

theorem Reaches.returns {a b : σ × γ} (path : Reaches finished step a b)
    {result : Except ε σ × γ} (rest : Returns finished step b result) :
    Returns finished step a result := by
  induction path with
  | refl => exact rest
  | tail _ advance ih =>
      exact ih (Returns.of_step advance.1 (Or.inr ⟨_, _, advance.2, rest⟩))

section Shortcuts

variable {fast slow : σ → ExceptT ε (Draw γ) σ} {Holds : σ → Prop}

/-- A fast step is the slow one, or it leads where one slow step and more of them lead. -/
def Shortens (finished : σ → Bool) (fast slow : σ → ExceptT ε (Draw γ) σ) (s : σ) (g : γ) : Prop :=
  fast s g = slow s g ∨ ∃ first last, Advances finished fast (s, g) last ∧
    Advances finished slow (s, g) first ∧ Reaches finished slow first last

variable (preserved : ∀ {s s' g g'}, Holds s → fast s g = some (.ok s', g') → Holds s')
  (shortens : ∀ {s} g, Holds s → finished s = false → Shortens finished fast slow s g)

include preserved shortens

theorem Returns.slow_of_fast {s : σ} {g : γ} (holds : Holds s) {result : Except ε σ × γ}
    (returns : Returns finished fast (s, g) result) : Returns finished slow (s, g) result := by
  obtain ⟨limit, ends⟩ := returns
  induction limit generalizing s g with
  | zero =>
      cases state : finished s with
      | true => exact (finished_iff state).mpr ((finished_iff state).mp ⟨0, ends⟩)
      | false =>
          rw [repeatUntil.zero_of_unfinished state] at ends
          cases ends
  | succ limit ih =>
      cases state : finished s with
      | true => exact (finished_iff state).mpr ((finished_iff state).mp ⟨limit + 1, ends⟩)
      | false =>
          rcases shortens g holds state with same | ⟨first, last, jump, walk, path⟩
          · apply of_step state
            rw [← same]
            rcases (repeatUntil.succ_eq_some_iff state).mp ends with failed | ⟨s', g', first, rest⟩
            · exact Or.inl failed
            · exact Or.inr ⟨s', g', first, ih (preserved holds first) rest⟩
          · rw [repeatUntil.succ_of_advances jump] at ends
            exact Reaches.returns (path.head walk) (ih (preserved holds jump.2) ends)

/-- The slow repetition has to go all the way that a fast step jumps over, so the limit that is
left after the jump is smaller. -/
theorem Returns.fast_of_slow {s : σ} {g : γ} (holds : Holds s) {result : Except ε σ × γ}
    (returns : Returns finished slow (s, g) result) : Returns finished fast (s, g) result := by
  obtain ⟨limit, ends⟩ := returns
  induction limit using Nat.strongRecOn generalizing s g with
  | ind limit ih =>
      cases state : finished s with
      | true => exact (finished_iff state).mpr ((finished_iff state).mp ⟨limit, ends⟩)
      | false =>
          cases limit with
          | zero =>
              rw [repeatUntil.zero_of_unfinished state] at ends
              cases ends
          | succ limit =>
              rcases shortens g holds state with same | ⟨first, last, jump, walk, path⟩
              · apply of_step state
                rw [same]
                rcases (repeatUntil.succ_eq_some_iff state).mp ends with failed | ⟨s', g', first, rest⟩
                · exact Or.inl failed
                · rw [← same] at first
                  exact Or.inr ⟨s', g', same ▸ first,
                    ih limit (Nat.lt_succ_self limit) (preserved holds first) rest⟩
              · rw [repeatUntil.succ_of_advances walk] at ends
                obtain ⟨left, bound, rest⟩ := path.repeatUntil_eq ends
                apply of_step state
                exact Or.inr ⟨last.1, last.2, jump.2,
                  ih left (Nat.lt_succ_of_le bound) (preserved holds jump.2) rest⟩

theorem returns_fast_iff_slow {s : σ} (g : γ) (holds : Holds s) (result : Except ε σ × γ) :
    Returns finished fast (s, g) result ↔ Returns finished slow (s, g) result :=
  ⟨Returns.slow_of_fast preserved shortens holds, Returns.fast_of_slow preserved shortens holds⟩

end Shortcuts

end BinaryQuadratic
