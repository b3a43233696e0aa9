import BinaryQuadratic.Proofs.Answer
import BinaryQuadratic.Proofs.AscentLength
import BinaryQuadratic.Proofs.Decomposition
import BinaryQuadratic.Random.Scripted

set_option autoImplicit false

/-! How many passes the solver makes. Every improvement makes an assignment the best that has never
been it before, and between two improvements there are fewer passes than it takes to stop. -/

namespace BinaryQuadratic

variable {α γ : Type} [Coefficient α] [Generator γ] {n : Nat}

/-- What the search of a pass found, and whether that was better than the best before. -/
structure Trial (α : Type) (n : Nat) where
  found : Searched α n
  better : Bool

/-- The first find and the better ones after it. -/
def bests (first : Searched α n) (trials : List (Trial α n)) : List (Searched α n) :=
  first :: (trials.filter (·.better)).map (·.found)

omit [Coefficient α] in
theorem bests_append_better (first found : Searched α n) (trials : List (Trial α n)) :
    bests first (trials ++ [⟨found, true⟩]) = bests first trials ++ [found] := by
  simp [bests]

omit [Coefficient α] in
theorem bests_append_not_better (first found : Searched α n) (trials : List (Trial α n)) :
    bests first (trials ++ [⟨found, false⟩]) = bests first trials := by
  simp [bests]

namespace Solver

/-- Passes from a state to the state after the last of them. -/
inductive Passes (limits : Limits) (p : Parameters α) (work : Qubo α) (start : Progress α n × γ) :
    List (Trial α n) → Progress α n × γ → Prop
  | none : Passes limits p work start [] start
  | onward {trials : List (Trial α n)} {s : Progress α n} {x : Assignment n} {spent : Nat}
      {found : Searched α n} {g₁ g₂ g₃ : γ}
      (before : Passes limits p work start trials (s, g₁))
      (goes : isFinished p s = false)
      (changes : diversify limits p work s.current g₁ = some (.ok (x, spent), g₂))
      (ends : searchWhole limits p work x g₂ = some (.ok found, g₃)) :
      Passes limits p work start
        (trials ++ [⟨found, decide (s.bestEnergy < found.outcome.energy)⟩]) (judge s spent found, g₃)

variable {limits : Limits} {p : Parameters α} {work : Qubo α} {g g₀ : γ} {first : Searched α n}
  {trials : List (Trial α n)} {s : Progress α n} {state start : Progress α n × γ}

theorem exists_passes_of_leads (path : Leads limits p work start state) :
    ∃ trials, Passes limits p work start trials state := by
  induction path with
  | refl => exact ⟨[], .none⟩
  | tail path advance ih =>
      obtain ⟨trials, before⟩ := ih
      obtain ⟨x, spent, found, g₁, changes, ends, judged⟩ := exists_of_pass advance.2
      have made := before.onward advance.1 changes ends
      rw [← judged] at made
      exact ⟨_, made⟩

theorem pass_of_ends {x : Assignment n} {spent : Nat} {found : Searched α n} {g₁ g₂ : γ}
    (changes : diversify limits p work s.current g = some (.ok (x, spent), g₁))
    (ends : searchWhole limits p work x g₁ = some (.ok found, g₂)) :
    pass limits p work s g = some (.ok (judge s spent found), g₂) :=
  (Attempt.bind_of_ok changes).trans (Attempt.bind_of_ok ends)

theorem Passes.leads (passes : Passes limits p work start trials state) :
    Leads limits p work start state := by
  induction passes with
  | none => exact .refl
  | onward before goes changes ends ih => exact ih.tail ⟨goes, pass_of_ends changes ends⟩

/-- What holds after passes from the state after the first search. -/
structure Tallies (p : Parameters α) (work : Qubo α) (first : Searched α n)
    (trials : List (Trial α n)) (s : Progress α n) : Prop where
  passes_eq : s.passes = trials.length
  held : ∃ earlier best, bests first trials = earlier ++ [best] ∧ s.Holds best
  increasing : (bests first trials).Pairwise fun earlier later =>
    earlier.outcome.energy < later.outcome.energy
  evaluated : ∀ best ∈ bests first trials, ∀ fits : n ≤ work.size,
    best.outcome.energy = work.energyWithin fits best.bits
  latest : ∃ earlier last, first :: trials.map (·.found) = earlier ++ [last] ∧
    s.targetReached = last.outcome.targetReached
  failed : ∃ earlier, trials.map (·.better) = earlier ++ List.replicate s.stale false ∧
    (earlier = [] ∨ earlier.getLast? = some true)
  stale_le : s.stale ≤ p.repeats
  passes_le : s.passes + p.repeats ≤ (bests first trials).length * p.repeats + s.stale

omit [Generator γ] in
theorem passes_judge (s : Progress α n) (spent : Nat) (found : Searched α n) :
    (judge s spent found).passes = s.passes + 1 := by
  unfold judge
  by_cases better : s.bestEnergy < found.outcome.energy
  · rw [if_pos better]
  · rw [if_neg better]

omit [Generator γ] in
theorem targetReached_judge (s : Progress α n) (spent : Nat) (found : Searched α n) :
    (judge s spent found).targetReached = found.outcome.targetReached := by
  unfold judge
  by_cases better : s.bestEnergy < found.outcome.energy
  · rw [if_pos better]
  · rw [if_neg better]

omit [Coefficient α] in
theorem stale_lt_of_unfinished (goes : isFinished p s = false) : s.stale < p.repeats := by
  simp only [isFinished, Bool.or_eq_false_iff, decide_eq_false_iff_not, Nat.not_le] at goes
  exact goes.1.2

namespace Tallies

theorem started (begins : Begins limits p work g first g₀) :
    Tallies p work first [] (started first) := by
  have ends := Attempt.adapt_eq_ok_iff.mp begins
  refine ⟨rfl, ⟨[], first, rfl, rfl, rfl, rfl⟩, List.pairwise_singleton _ _, ?_,
    ⟨[], first, rfl, rfl⟩, ⟨[], rfl, .inl rfl⟩, Nat.zero_le _, ?_⟩
  · intro best member fits
    rw [List.mem_singleton.mp member]
    exact TabuSearch.energy_eq_of_run ends fits
  · change 0 + p.repeats ≤ 1 * p.repeats + 0
    omega

variable {x : Assignment n} {spent : Nat} {found : Searched α n} {g₁ g₂ : γ}

theorem latest_append (trials : List (Trial α n)) (better : Bool) (s : Progress α n) :
    ∃ earlier last,
      first :: (trials ++ [Trial.mk found better]).map (·.found) = earlier ++ [last] ∧
      (judge s spent found).targetReached = last.outcome.targetReached := by
  refine ⟨first :: trials.map (·.found), found, ?_, targetReached_judge s spent found⟩
  rw [List.map_append, List.cons_append]
  rfl

theorem judge_of_better (tallies : Tallies p work first trials s)
    (transitive : ∀ a b c : α, a < b → b < c → a < c) (goes : isFinished p s = false)
    (ends : searchWhole limits p work x g₁ = some (.ok found, g₂))
    (better : s.bestEnergy < found.outcome.energy) :
    Tallies p work first (trials ++ [⟨found, true⟩]) (judge s spent found) := by
  obtain ⟨passes_eq, ⟨earlier, best, listed, holds⟩, increasing, evaluated, _, _, _, passes_le⟩ :=
    tallies
  have below : ∀ other ∈ bests first trials, other.outcome.energy < found.outcome.energy := by
    rw [listed] at increasing ⊢
    have last_below : best.outcome.energy < found.outcome.energy := by
      rw [← holds.energy_eq]
      exact better
    intro other member
    rcases List.mem_append.mp member with before | last
    · have raised := (List.pairwise_append.mp increasing).2.2 other before best
        (List.mem_singleton.mpr rfl)
      exact transitive _ _ _ raised last_below
    · rw [List.mem_singleton.mp last]
      exact last_below
  have passes_succ := passes_judge s spent found
  have fresh : (judge s spent found).stale = 0 := by
    unfold Solver.judge
    rw [if_pos better]
  refine ⟨?_, ?_, ?_, ?_, latest_append trials true s, ?_, ?_, ?_⟩
  · rw [passes_succ, passes_eq, List.length_append, List.length_singleton]
  · rw [bests_append_better]
    exact ⟨bests first trials, found, rfl, Solver.judge_of_better better⟩
  · rw [bests_append_better, List.pairwise_append]
    refine ⟨increasing, List.pairwise_singleton _ _, ?_⟩
    intro other member again new
    rw [List.mem_singleton.mp new]
    exact below other member
  · rw [bests_append_better]
    intro other member fits
    rcases List.mem_append.mp member with before | new
    · exact evaluated other before fits
    · rw [List.mem_singleton.mp new]
      exact TabuSearch.energy_eq_of_run (Attempt.adapt_eq_ok_iff.mp ends) fits
  · rw [fresh]
    refine ⟨trials.map (·.better) ++ [true], ?_, .inr List.getLast?_concat⟩
    rw [List.map_append, List.replicate_zero, List.append_nil]
    rfl
  · rw [fresh]
    exact Nat.zero_le _
  · have within := stale_lt_of_unfinished goes
    rw [passes_succ, fresh, bests_append_better, List.length_append, List.length_singleton,
      Nat.succ_mul]
    omega

theorem judge_of_not_better (tallies : Tallies p work first trials s)
    (goes : isFinished p s = false) (misses : ¬s.bestEnergy < found.outcome.energy) :
    Tallies p work first (trials ++ [⟨found, false⟩]) (judge s spent found) := by
  obtain ⟨passes_eq, ⟨earlier, best, listed, holds⟩, increasing, evaluated, _,
    ⟨before, verdicts, improved⟩, _, passes_le⟩ := tallies
  have passes_succ := passes_judge s spent found
  have stale_succ : (judge s spent found).stale = s.stale + 1 := by
    unfold Solver.judge
    rw [if_neg misses]
  refine ⟨?_, ?_, ?_, ?_, latest_append trials false s, ?_, ?_, ?_⟩
  · rw [passes_succ, passes_eq, List.length_append, List.length_singleton]
  · rw [bests_append_not_better]
    exact ⟨earlier, best, listed, Solver.judge_of_not_better holds misses⟩
  · rw [bests_append_not_better]
    exact increasing
  · rw [bests_append_not_better]
    exact evaluated
  · refine ⟨before, ?_, improved⟩
    rw [stale_succ, List.replicate_succ', ← List.append_assoc, ← verdicts, List.map_append]
    rfl
  · rw [stale_succ]
    exact stale_lt_of_unfinished goes
  · rw [passes_succ, stale_succ, bests_append_not_better]
    omega

theorem of_passes {state : Progress α n × γ} (transitive : ∀ a b c : α, a < b → b < c → a < c)
    (begins : Begins limits p work g first g₀)
    (passes : Passes limits p work (Solver.started first, g₀) trials state) :
    Tallies p work first trials state.1 := by
  induction passes with
  | none => exact started begins
  | @onward _ s _ _ found _ _ _ before goes changes ends ih =>
      by_cases better : s.bestEnergy < found.outcome.energy
      · rw [decide_eq_true better]
        exact ih.judge_of_better transitive goes ends better
      · rw [decide_eq_false better]
        exact ih.judge_of_not_better goes better

/-- Energies that differ are those of different assignments. -/
theorem nodup_bits (tallies : Tallies p work first trials s) (irreflexive : ∀ a : α, ¬a < a)
    (fits : n ≤ work.size) : ((bests first trials).map (·.bits)).Nodup := by
  refine List.pairwise_map.mpr (tallies.increasing.imp_of_mem ?_)
  intro earlier later before after raised same
  have equal : earlier.outcome.energy = later.outcome.energy := by
    rw [tallies.evaluated earlier before fits, tallies.evaluated later after fits, same]
  rw [equal] at raised
  exact irreflexive _ raised

theorem passes_le_two_pow (tallies : Tallies p work first trials s)
    (irreflexive : ∀ a : α, ¬a < a) (fits : n ≤ work.size) :
    s.passes ≤ p.repeats * 2 ^ n := by
  have few := Assignment.length_le_of_nodup (tallies.nodup_bits irreflexive fits)
  rw [List.length_map] at few
  have product : (bests first trials).length * p.repeats ≤ 2 ^ n * p.repeats :=
    Nat.mul_le_mul_right _ few
  have counted := tallies.passes_le
  have stale_le := tallies.stale_le
  rw [Nat.mul_comm]
  omega

end Tallies

/-! ### Passes that return -/

theorem exists_foldlM_searchChunk (fits : n ≤ work.size) {items : List (List (Fin n))}
    (distinct : ∀ chunk ∈ items, chunk.Nodup) (part : Partial n)
    (returns : ∀ before chunk after part' g', items = before ++ chunk :: after →
      before.foldlM (searchChunk limits p work) part g = some (.ok part', g') →
      ∀ sub, reduce (sortedIndices chunk) work part'.1 = .ok sub →
      ∃ found g'', chunkSearch limits p sub g' = some (.ok found, g'')) :
    ∃ last g', items.foldlM (searchChunk limits p work) part g = some (.ok last, g') := by
  induction items generalizing part g with
  | nil => exact ⟨part, g, rfl⟩
  | cons chunk rest ih =>
      obtain ⟨chunk_distinct, rest_distinct⟩ := List.forall_mem_cons.mp distinct
      obtain ⟨indices, _, reduced⟩ := exists_reduce fits chunk_distinct part.1
      obtain ⟨found, g₁, ends⟩ := returns [] chunk rest part g rfl rfl _ reduced
      have stepped := searchChunk_of_ends reduced ends
      rw [List.foldlM_cons, Attempt.bind_of_ok stepped]
      apply ih rest_distinct
      intro before later after part' g' split searched
      apply returns (chunk :: before) later after part' g'
      · rw [split, List.cons_append]
      · rw [List.foldlM_cons, Attempt.bind_of_ok stepped]
        exact searched

/-- Every search that the solver comes to returns, and so does every random choice of variables. -/
structure Returning (limits : Limits) (p : Parameters α) (work : Qubo α) (n : Nat) (g : γ) :
    Prop where
  chunk : p.subproblemSize < n → ∀ (s : Progress α n) g₁, Attains limits p work g (s, g₁) →
    isFinished p s = false → ∀ chunk part g₂, ComesTo limits p work s.current g₁ chunk part g₂ →
    ∀ sub, reduce (sortedIndices chunk) work part.1 = .ok sub →
    ∃ found g₃, chunkSearch limits p sub g₂ = some (.ok found, g₃)
  choice : n ≤ p.subproblemSize → ∀ (s : Progress α n) g₁, Attains limits p work g (s, g₁) →
    isFinished p s = false →
    ∃ changed g₂, perturb limits.redraws p.perturbFraction s.current g₁ = some (changed, g₂)
  whole : ∀ (s : Progress α n) g₁, Attains limits p work g (s, g₁) → isFinished p s = false →
    ∀ x spent g₂, diversify limits p work s.current g₁ = some (.ok (x, spent), g₂) →
    ∃ found g₃, searchWhole limits p work x g₂ = some (.ok found, g₃)

theorem Returning.exists_pass_eq (returning : Returning limits p work n g) (fits : n ≤ work.size)
    {g₁ : γ} (attained : Attains limits p work g (s, g₁)) (goes : isFinished p s = false) :
    ∃ next g₂, pass limits p work s g₁ = some (.ok next, g₂) := by
  have changes : ∃ changed g₂, diversify limits p work s.current g₁ = some (.ok changed, g₂) := by
    unfold diversify
    by_cases large : p.subproblemSize < n
    · rw [if_pos large]
      unfold decompose
      have costs := Qubo.flipCosts_of_fits fits s.current
      rw [Attempt.bind_of_ok (Attempt.liftExcept_of_ok costs g₁)]
      apply exists_foldlM_searchChunk fits
      · exact fun chunk member => nodup_of_mem_chunks (nodup_ranking _) member
      · intro before chunk after part g₂ split searched
        exact returning.chunk large s g₁ attained goes chunk part g₂
          ⟨_, before, after, costs, split, searched⟩
    · rw [if_neg large]
      obtain ⟨changed, g₂, drawn⟩ := returning.choice (Nat.not_lt.mp large) s g₁ attained goes
      exact ⟨(changed.2, 0), g₂, Attempt.bind_of_ok (Attempt.lift_of_some drawn)⟩
  obtain ⟨⟨x, spent⟩, g₂, changes⟩ := changes
  obtain ⟨found, g₃, ends⟩ := returning.whole s g₁ attained goes x spent g₂ changes
  exact ⟨_, g₃, pass_of_ends changes ends⟩

theorem exists_chunkSearch_of_decompose {x : Assignment n} {part part' : Partial n} {g₁ g' : γ}
    {chunk : List (Fin n)} (ends : decompose limits p work x g = some (.ok part', g'))
    (comes : ComesTo limits p work x g chunk part g₁) {sub : Subproblem α n}
    (reduced : reduce (sortedIndices chunk) work part.1 = .ok sub) :
    ∃ found g₂, chunkSearch limits p sub g₁ = some (.ok found, g₂) := by
  obtain ⟨costs, before, after, costs_eq, split, searched⟩ := comes
  unfold decompose at ends
  rw [Attempt.bind_of_ok (Attempt.liftExcept_of_ok costs_eq g), split, List.foldlM_append,
    Attempt.bind_of_ok searched, List.foldlM_cons] at ends
  obtain ⟨next, g₂, stepped, _⟩ := Attempt.bind_eq_ok_iff.mp ends
  obtain ⟨sub', found, g₃, reduced', returned⟩ := exists_of_searchChunk stepped
  cases reduced.symm.trans reduced'
  exact ⟨found, g₃, returned⟩

theorem returning_of_leads {last : Progress α n} {g' : γ}
    (begins : Begins limits p work g first g₀)
    (path : Leads limits p work (started first, g₀) (last, g'))
    (finished : isFinished p last = true) : Returning limits p work n g := by
  have passed : ∀ (s : Progress α n) g₁, Attains limits p work g (s, g₁) → isFinished p s = false →
      ∃ x spent found g₂ g₃, diversify limits p work s.current g₁ = some (.ok (x, spent), g₂) ∧
        searchWhole limits p work x g₂ = some (.ok found, g₃) := by
    rintro s g₁ ⟨_, _, begins', before⟩ goes
    obtain ⟨rfl, rfl⟩ := begins.unique begins'
    obtain ⟨next, advance, _⟩ := before.next_of_unfinished goes path finished
    obtain ⟨x, spent, found, g₂, changes, ends, _⟩ := exists_of_pass advance.2
    exact ⟨x, spent, found, g₂, _, changes, ends⟩
  constructor
  · intro large s g₁ attained goes chunk part g₂ comes sub reduced
    obtain ⟨x, spent, _, g₃, _, changes, _⟩ := passed s g₁ attained goes
    unfold diversify at changes
    rw [if_pos large] at changes
    exact exists_chunkSearch_of_decompose changes comes reduced
  · intro small s g₁ attained goes
    obtain ⟨x, spent, _, g₃, _, changes, _⟩ := passed s g₁ attained goes
    unfold diversify at changes
    rw [if_neg (Nat.not_lt.mpr small)] at changes
    obtain ⟨changed, g₂, drawn, _⟩ := Attempt.bind_eq_ok_iff.mp changes
    exact ⟨changed, g₂, Attempt.lift_eq_ok_iff.mp drawn⟩
  · intro s g₁ attained goes x spent g₂ changes
    obtain ⟨_, _, found, _, g₃, changes', ends⟩ := passed s g₁ attained goes
    cases changes.symm.trans changes'
    exact ⟨found, g₃, ends⟩

/-- With as many passes as can be needed, a solver whose searches return comes to its end. -/
theorem exists_passesFrom_eq (irreflexive : ∀ a : α, ¬a < a)
    (transitive : ∀ a b c : α, a < b → b < c → a < c) (fits : n ≤ work.size)
    (begins : Begins limits p work g first g₀) (returning : Returning limits p work n g)
    (enough : p.repeats * 2 ^ n ≤ limits.passes) :
    ∃ last g', passesFrom limits p work limits.passes (started first) g₀ =
      some (.ok last, g') := by
  have counted : ∀ state, Leads limits p work (started first, g₀) state →
      state.1.passes ≤ p.repeats * 2 ^ n := by
    intro state path
    obtain ⟨trials, passes⟩ := exists_passes_of_leads path
    exact (Tallies.of_passes transitive begins passes).passes_le_two_pow irreflexive fits
  let left : Progress α n → Nat := fun s => p.repeats * 2 ^ n - s.passes
  have goes_on : ∀ state, Leads limits p work (started first, g₀) state →
      isFinished p state.1 = false → ∃ next, Advances (isFinished p) (pass limits p work) state next := by
    intro state path goes
    obtain ⟨next, g', passed⟩ := returning.exists_pass_eq fits ⟨first, g₀, begins, path⟩ goes
    exact ⟨(next, g'), goes, passed⟩
  have decreases : ∀ state next, Leads limits p work (started first, g₀) state →
      Advances (isFinished p) (pass limits p work) state next → left next.1 < left state.1 := by
    intro state next path advance
    have within := counted next (path.tail advance)
    obtain ⟨x, spent, found, g', _, _, judged⟩ := exists_of_pass advance.2
    have one_more : next.1.passes = state.1.passes + 1 := by
      rw [judged]
      exact passes_judge _ _ _
    change p.repeats * 2 ^ n - next.1.passes < p.repeats * 2 ^ n - state.1.passes
    omega
  have start_le : left (started first) ≤ limits.passes := Nat.le_trans (Nat.sub_le _ _) enough
  exact Reaches.exists_repeatUntil_eq_ok goes_on decreases start_le

end Solver

/-- A solver whose searches return comes to its end after at most `repeats` passes for each
assignment, unless a time limit stops it before. Between two passes it holds the last of the best
finds: their energies go up strictly, so no assignment is found best twice. At the end the target is
reached, or the last `repeats` passes, and not the one before them, have found nothing better. -/
theorem passes_of_solve {limits : Limits} {p : Parameters Binary64} {q : Qubo Binary64}
    {first : Searched Binary64 q.size} {γ : Type} [Generator γ] {g g₀ : γ}
    (untimed : p.timeout ≠ 0) (begins : Solver.Begins limits p (p.maximized q) g first g₀) :
    (p.check = .ok () → Solver.Returning limits p (p.maximized q) q.size g →
      p.repeats * 2 ^ q.size ≤ limits.passes →
      ∃ solution g', solve limits p q g = some (.ok solution, g')) ∧
    (∀ trials s g',
      Solver.Passes limits p (p.maximized q) (Solver.started first, g₀) trials (s, g') →
      s.current = s.best ∧ s.passes = trials.length ∧ s.passes ≤ p.repeats * 2 ^ q.size ∧
      (∃ earlier best, bests first trials = earlier ++ [best] ∧ s.best = best.bits ∧
        s.bestEnergy = best.outcome.energy) ∧
      ((bests first trials).Pairwise fun earlier later =>
        earlier.outcome.energy < later.outcome.energy) ∧
      ((bests first trials).map (·.bits)).Nodup) ∧
    ∀ solution g', solve limits p q g = some (.ok solution, g') →
      ∃ trials last,
        Solver.Passes limits p (p.maximized q) (Solver.started first, g₀) trials (last, g') ∧
        solution = Solver.finished p last ∧
        (solution.targetReached = true ∨
          p.repeats ≤ solution.passes ∧
          ∃ earlier, trials.map (·.better) = earlier ++ List.replicate p.repeats false ∧
            (earlier = [] ∨ earlier.getLast? = some true)) := by
  have inside : q.size ≤ (p.maximized q).size := (p.size_maximized q).ge
  have irreflexive := Binary64.not_lt_self
  have transitive : ∀ a b c : Binary64, a < b → b < c → a < c := fun _ _ _ => Binary64.lt_trans
  refine ⟨?_, ?_, ?_⟩
  · intro valid returning enough
    obtain ⟨last, g', repeats⟩ :=
      Solver.exists_passesFrom_eq irreflexive transitive inside begins returning enough
    exact ⟨_, g', Solver.solve_of_course valid begins repeats⟩
  · intro trials s g' passes
    have tallies := Solver.Tallies.of_passes transitive begins passes
    obtain ⟨earlier, best, listed, holds⟩ := tallies.held
    exact ⟨holds.current_eq.trans holds.best_eq.symm, tallies.passes_eq,
      tallies.passes_le_two_pow irreflexive inside,
      ⟨earlier, best, listed, holds.best_eq, holds.energy_eq⟩, tallies.increasing,
      tallies.nodup_bits irreflexive inside⟩
  · intro solution g' ends
    obtain ⟨_, found, g₁, last, begins', path, stopped, rfl⟩ := Solver.course_of_solve ends
    obtain ⟨rfl, rfl⟩ := begins.unique begins'
    obtain ⟨trials, passes⟩ := Solver.exists_passes_of_leads path
    have tallies := Solver.Tallies.of_passes transitive begins passes
    refine ⟨trials, last, passes, rfl, ?_⟩
    simp only [Solver.isFinished, Bool.or_eq_true, decide_eq_true_eq, untimed, or_false] at stopped
    rcases stopped with reached | stale
    · exact .inl reached
    · have exactly : last.stale = p.repeats := Nat.le_antisymm tallies.stale_le stale
      obtain ⟨earlier, verdicts, improved⟩ := tallies.failed
      rw [exactly] at verdicts
      refine .inr ⟨?_, earlier, verdicts, improved⟩
      change p.repeats ≤ last.passes
      have long := congrArg List.length verdicts
      rw [List.length_map, List.length_append, List.length_replicate] at long
      rw [tallies.passes_eq, long]
      exact Nat.le_add_left _ _

theorem passes_of_solve_with_one_improvement :
    let one := Binary64.ofNat 1
    let two := Binary64.ofNat 2
    let q : Qubo Binary64 :=
      ⟨4, #v[-one, two, two, one, 0, -one, two, -.ofNat 3, 0, 0, -one, one, 0, 0, 0, -two]⟩
    let p : Parameters Binary64 :=
      { findMax := true, subproblemSize := 3, repeats := 2, tenure := some 2, budget := 1,
        subproblemBudget := 20 }
    let limits := Limits.uniform 64
    let g : Scripted :=
      ⟨#[0x9e3779b97f4a7c15, 0xdeadbeefcafebabe, 0x8123456789abcdef, 0xf23456789abcdef1],
        by decide, 0⟩
    ∃ first g₀ solution g', p.timeout ≠ 0 ∧
      Solver.Begins limits p (p.maximized q) g first g₀ ∧ p.check = .ok () ∧
      Solver.Returning limits p (p.maximized q) q.size g ∧
      p.repeats * 2 ^ q.size ≤ limits.passes ∧
      solve limits p q g = some (.ok solution, g') ∧
      (solution.passes, solution.bits) = (3, #v[true, true, true, false]) ∧
      ∃ trials last,
        Solver.Passes limits p (p.maximized q) (Solver.started first, g₀) trials (last, g') ∧
        last.passes ≤ 2 * 2 ^ 4 ∧ ((bests first trials).map (·.bits)).Nodup ∧
        solution = Solver.finished p last ∧
        (solution.targetReached = true ∨
          2 ≤ solution.passes ∧
          ∃ earlier, trials.map (·.better) = earlier ++ List.replicate 2 false ∧
            (earlier = [] ∨ earlier.getLast? = some true)) := by
  intro one two q p limits g
  have reported : ((solve limits p q g).map fun result =>
      result.1.toOption.map fun solution => (solution.passes, solution.bits)) =
        some (some (3, #v[true, true, true, false])) := by
    decide +kernel
  obtain ⟨found, g₁, ends, values⟩ := Attempt.exists_ok_of_report reported
  obtain ⟨valid, first, g₀, last, begins, path, finished, _⟩ := Solver.course_of_solve ends
  have returning := Solver.returning_of_leads begins path finished
  have untimed : p.timeout ≠ 0 := by decide
  obtain ⟨terminates, heads, answers⟩ := passes_of_solve untimed begins
  obtain ⟨solution, g', returned⟩ := terminates valid returning (by decide)
  cases ends.symm.trans returned
  obtain ⟨trials, last, passes, answered, stopped⟩ := answers _ _ ends
  obtain ⟨_, _, few, _, _, distinct⟩ := heads trials last _ passes
  exact ⟨first, g₀, found, _, untimed, begins, valid, returning, by decide, ends, values, trials,
    last, passes, few, distinct, answered, stopped⟩

end BinaryQuadratic
