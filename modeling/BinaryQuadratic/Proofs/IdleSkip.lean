import BinaryQuadratic.Proofs.Countdown
import BinaryQuadratic.Proofs.Iteration
import BinaryQuadratic.Proofs.Repetition

set_option autoImplicit false

/-! Passing over idle iterations. The search that lives through them one at a time, lowering the
countdowns by one in each, gives the same results as the search that skips them. -/

namespace BinaryQuadratic

variable {α γ : Type} [Coefficient α] [Generator γ] {q : Qubo α} {n : Nat}

namespace SearchState

/-- An iteration that only relaxes the list when every variable is forbidden. -/
def iterateSingly (limits : Limits) (target : Option (Target α)) (s : SearchState q n) :
    Attempt γ (SearchState q n) := do
  let s := s.countIterations 1
  match scan s.tabu s.walk.current s.bestEnergy s.order none s.walk.effort with
  | .improving v effort =>
    liftExcept effort.checked
    s.improve limits target v effort
  | .exhausted (some (v, _)) effort =>
    liftExcept effort.checked
    s.divert v effort
  | .exhausted none _ => return { s with tabu := s.tabu.relax }

def iterateSinglyFrom (limits : Limits) (target : Option (Target α)) (iterations : Nat)
    (s : SearchState q n) : Attempt γ (SearchState q n) :=
  repeatUntil isFinished (iterateSingly limits target) iterations s

end SearchState

namespace TabuSearch

def runSinglyWithin (limits : Limits) (p : TabuSearch α) (q : Qubo α) (fits : n ≤ q.size)
    (x : Assignment n) (effort : Effort) (ceiling : Nat) : Attempt γ (Searched α n) :=
  if n = 0 then pure (p.withoutVariables x effort ceiling)
  else do
    let walk ← Walk.climb limits ⟨Tracked.ofAssignmentWithin q fits x, effort⟩
    let finished ← SearchState.iterateSinglyFrom limits p.target limits.iterations
      (SearchState.ofWalk p ceiling walk)
    return finished.searched effort

/-- The search in which an iteration with every variable forbidden counts as one iteration, relaxes
the list once and goes on. -/
def runSingly (limits : Limits) (p : TabuSearch α) (q : Qubo α) (x : Assignment n) (effort : Effort)
    (ceiling : Nat) : Attempt γ (Searched α n) := do
  let ⟨fits⟩ ← liftExcept ((q.checkLength n).mapError (Breakdown.mk · effort))
  p.runSinglyWithin limits q fits x effort ceiling

end TabuSearch

namespace SearchState

def Blocked (s : SearchState q n) : Prop := ∀ v, s.tabu.forbids v = true

/-- The state after `count` iterations in which nothing was moved. -/
def waited (s : SearchState q n) (count : Nat) : SearchState q n :=
  { s with tabu := s.tabu.lowered count }.countIterations count

omit [Coefficient α] in
theorem countIterations_countIterations (s : SearchState q n) (first second : Nat) :
    (s.countIterations first).countIterations second = s.countIterations (first + second) := by
  unfold countIterations
  congr 1
  change min (min (s.iterations + first) greatestWord + second) greatestWord =
    min (s.iterations + (first + second)) greatestWord
  omega

omit [Coefficient α] in
theorem waited_waited (s : SearchState q n) (first second : Nat) :
    (s.waited first).waited second = s.waited (first + second) := by
  unfold waited
  rw [← countIterations_countIterations, ← TabuList.lowered_lowered]
  rfl

omit [Coefficient α] in
theorem idle_eq_waited (s : SearchState q n) (lasting : 0 < s.tabu.shortest) :
    (s.countIterations 1).idle = s.waited s.tabu.shortest := by
  have total : 1 + (s.tabu.shortest - 1) = s.tabu.shortest := by omega
  let lowered : SearchState q n := { s with tabu := s.tabu.skipIdle }
  change (lowered.countIterations 1).countIterations (s.tabu.shortest - 1) = _
  rw [countIterations_countIterations, total]
  unfold waited
  rw [← TabuList.skipIdle_eq_lowered]

omit [Coefficient α] in
theorem blocked_iff (s : SearchState q n) (v : Fin n) : s.Blocked ↔ 0 < s.tabu.shortest :=
  s.tabu.forbids_all_iff v

omit [Coefficient α] in
theorem blocked_waited_iff (s : SearchState q n) (v : Fin n) (count : Nat) :
    (s.waited count).Blocked ↔ count < s.tabu.shortest :=
  s.tabu.forbids_lowered_all_iff v count

/-! ### One iteration of either search -/

variable {limits : Limits} {target : Option (Target α)} {s : SearchState q n} {g : γ}

theorem iterate_of_blocked (blocked : s.Blocked) (v : Fin n) :
    s.iterate limits target g = some (.ok (s.waited s.tabu.shortest), g) := by
  obtain ⟨left, found⟩ : ∃ left, s.scanned = .exhausted none left :=
    scan_empty_iff.mpr fun v _ => blocked v
  unfold scanned at found
  unfold iterate
  simp only [countIterations, found]
  rw [← idle_eq_waited s ((s.blocked_iff v).mp blocked)]
  rfl

theorem iterateSingly_of_blocked (blocked : s.Blocked) :
    s.iterateSingly limits target g = some (.ok (s.waited 1), g) := by
  obtain ⟨left, found⟩ : ∃ left, s.scanned = .exhausted none left :=
    scan_empty_iff.mpr fun v _ => blocked v
  unfold scanned at found
  unfold iterateSingly
  simp only [countIterations, found, TabuList.relax_eq_lowered]
  rfl

theorem iterateSingly_eq_iterate {v : Fin n} (ranked : v ∈ s.order)
    (free : s.tabu.forbids v = false) :
    (s.iterateSingly limits target : Attempt γ _) = s.iterate limits target := by
  unfold iterateSingly iterate
  simp only [countIterations]
  cases found : scan s.tabu s.walk.current s.bestEnergy s.order none s.walk.effort with
  | improving u effort => rfl
  | exhausted nearMiss effort =>
      cases nearMiss with
      | some held => rfl
      | none =>
          have forbidden := scan_empty_iff.mp ⟨effort, found⟩ v ranked
          rw [free] at forbidden
          cases forbidden

def Ranked (s : SearchState q n) : Prop := ∀ v, v ∈ s.order

theorem ranked_ofWalk (p : TabuSearch α) (ceiling : Nat) (walk : Walk q n) :
    (ofWalk p ceiling walk).Ranked :=
  mem_ranking walk.current.costs

theorem Ranked.iterates {s' : SearchState q n} {g' : γ} (ranked : s.Ranked)
    (step : Iterates limits target s g s' g') : s'.Ranked := by
  cases step with
  | reaches found counted climbs met => exact mem_ranking _
  | improves found counted climbs unmet bounded => exact mem_ranking _
  | diverts found counted => exact ranked
  | idles found => exact ranked

omit [Coefficient α] in
theorem blocked_or_free (s : SearchState q n) : s.Blocked ∨ ∃ v, s.tabu.forbids v = false := by
  by_cases blocked : s.Blocked
  · exact Or.inl blocked
  · obtain ⟨v, free⟩ := Classical.not_forall.mp blocked
    exact Or.inr ⟨v, Bool.eq_false_iff.mpr free⟩

/-- As long as the shortest countdown lasts, single iterations lead on without a draw. -/
theorem reaches_waited (goes : s.isFinished = false) (v : Fin n) (count : Nat)
    (lasting : count < s.tabu.shortest) :
    Reaches isFinished (iterateSingly limits target) (s.waited 1, g) (s.waited (count + 1), g) := by
  induction count with
  | zero => exact .refl
  | succ count ih =>
      have blocked : (s.waited (count + 1)).Blocked := (s.blocked_waited_iff v _).mpr lasting
      refine (ih (Nat.lt_of_succ_lt lasting)).tail ⟨goes, ?_⟩
      rw [← s.waited_waited (count + 1) 1]
      exact iterateSingly_of_blocked blocked

theorem shortens_iterate (ranked : s.Ranked) (goes : s.isFinished = false) (v : Fin n) :
    Shortens isFinished (iterate limits target) (iterateSingly limits target) s g := by
  rcases s.blocked_or_free with blocked | ⟨u, free⟩
  · have lasting : 0 < s.tabu.shortest := (s.blocked_iff v).mp blocked
    have final : s.tabu.shortest - 1 + 1 = s.tabu.shortest := Nat.sub_add_cancel lasting
    have path : Reaches isFinished (iterateSingly limits target) (s.waited 1, g)
        (s.waited (s.tabu.shortest - 1 + 1), g) :=
      reaches_waited goes v _ (Nat.sub_lt lasting Nat.one_pos)
    rw [final] at path
    exact Or.inr ⟨_, _, ⟨goes, iterate_of_blocked blocked v⟩,
      ⟨goes, iterateSingly_of_blocked blocked⟩, path⟩
  · exact Or.inl (congrFun (iterateSingly_eq_iterate (ranked u) free).symm g)

theorem returns_iterate_iff (ranked : s.Ranked) (v : Fin n)
    (result : Except Breakdown (SearchState q n) × γ) :
    Returns isFinished (iterate limits target) (s, g) result ↔
      Returns isFinished (iterateSingly limits target) (s, g) result := by
  apply returns_fast_iff_slow
  · intro s s' g g' ranked step
    exact Ranked.iterates ranked (iterates_of_iterate step)
  · intro s g ranked goes
    exact shortens_iterate ranked goes v
  · exact ranked

end SearchState

namespace TabuSearch

section Report

variable {step : SearchState q n → Attempt γ (SearchState q n)} {effort : Effort} {g : γ}
  {result : Except Breakdown (Searched α n) × γ}

omit [Generator γ]

theorem exists_report_iff (s : SearchState q n) :
    (∃ iterations, (repeatUntil SearchState.isFinished step iterations s >>= fun last =>
        (pure (last.searched effort) : Attempt γ (Searched α n))) g = some result) ↔
      ∃ inner, Returns SearchState.isFinished step (s, g) inner ∧
        result = (inner.1.map (·.searched effort), inner.2) := by
  simp only [Attempt.bind_pure_eq_some_iff]
  constructor
  · rintro ⟨iterations, inner, ends, same⟩
    exact ⟨inner, ⟨iterations, ends⟩, same⟩
  · rintro ⟨inner, ⟨iterations, ends⟩, same⟩
    exact ⟨iterations, inner, ends, same⟩

end Report

theorem runWithin_iff_runSinglyWithin (limits : Limits) (p : TabuSearch α) (fits : n ≤ q.size)
    (x : Assignment n) (effort : Effort) (ceiling : Nat) (g : γ)
    (result : Except Breakdown (Searched α n) × γ) :
    (∃ iterations, p.runWithin { limits with iterations } q fits x effort ceiling g = some result) ↔
      ∃ iterations,
        p.runSinglyWithin { limits with iterations } q fits x effort ceiling g = some result := by
  unfold runWithin runSinglyWithin
  by_cases empty : n = 0
  · simp only [if_pos empty]
  · simp only [if_neg empty]
    let v : Fin n := ⟨0, Nat.pos_of_ne_zero empty⟩
    let start : Walk q n := ⟨Tracked.ofAssignmentWithin q fits x, effort⟩
    have same : ∀ iterations, (Walk.climb { limits with iterations } start : Attempt γ _) =
        Walk.climb limits start := fun _ => rfl
    have repeats : ∀ iterations (s : SearchState q n),
        (SearchState.iterateFrom { limits with iterations } p.target iterations s : Attempt γ _) =
          repeatUntil SearchState.isFinished (SearchState.iterate limits p.target) iterations s :=
      fun _ _ => rfl
    have repeatsSingly : ∀ iterations (s : SearchState q n),
        (SearchState.iterateSinglyFrom { limits with iterations } p.target iterations s :
          Attempt γ _) =
          repeatUntil SearchState.isFinished (SearchState.iterateSingly limits p.target) iterations
            s :=
      fun _ _ => rfl
    cases climbs : Walk.climb limits start g with
    | none => simp only [start, same, Attempt.bind_of_none climbs]
    | some outcome =>
        rcases outcome with ⟨ends, g₁⟩
        cases ends with
        | error failure => simp only [start, same, Attempt.bind_of_error climbs]
        | ok walk =>
            have ranked := SearchState.ranked_ofWalk p ceiling walk
            simp only [start, same, repeats, repeatsSingly, Attempt.bind_of_ok climbs]
            rw [exists_report_iff, exists_report_iff]
            simp only [SearchState.returns_iterate_iff ranked v]

/-- The two searches have the same results: energies, counts, trace, assignment, effort and the
generator that is left, and the same breakdowns. The one that passes over idle iterations only
needs fewer steps for it. -/
theorem run_iff_runSingly (limits : Limits) (p : TabuSearch α) (q : Qubo α) (x : Assignment n)
    (effort : Effort) (ceiling : Nat) (g : γ) (result : Except Breakdown (Searched α n) × γ) :
    (∃ iterations, p.run { limits with iterations } q x effort ceiling g = some result) ↔
      ∃ iterations, p.runSingly { limits with iterations } q x effort ceiling g = some result := by
  unfold run runSingly
  cases q.checkLength n with
  | error fault =>
      have fails : (liftExcept ((Except.error fault : Except Fault (PLift (n ≤ q.size))).mapError
          (Breakdown.mk · effort)) : Attempt γ _) g = some (.error ⟨fault, effort⟩, g) := rfl
      simp only [Attempt.bind_of_error fails]
  | ok fits =>
      have passes : (liftExcept ((Except.ok fits).mapError (Breakdown.mk · effort)) : Attempt γ _) g =
          some (.ok fits, g) := rfl
      simp only [Attempt.bind_of_ok passes]
      exact runWithin_iff_runSinglyWithin limits p fits.down x effort ceiling g result

end TabuSearch

end BinaryQuadratic
