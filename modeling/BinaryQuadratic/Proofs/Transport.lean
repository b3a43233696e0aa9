import BinaryQuadratic.Proofs.Climb
import BinaryQuadratic.Proofs.Embedding
import BinaryQuadratic.Proofs.Repetition

set_option autoImplicit false

/-! Searches on corresponding matrices. Everything that a search holds is carried over from the one
matrix to the other, and each step of a search commutes with that: the same words are drawn, the same
variables are toggled, and the same effort is spent. So whole runs correspond, breakdowns included. -/

namespace BinaryQuadratic

open Coefficient (Embedding)

variable {α β γ : Type} [Coefficient α] [Coefficient β] {n : Nat}

def Target.map (f : α → β) (t : Target α) : Target β := ⟨f t.value, t.findMax⟩

def TabuSearch.map (f : α → β) (p : TabuSearch α) : TabuSearch β :=
  ⟨p.tenure, p.target.map (Target.map f), p.maxExtensions⟩

def Outcome.map (f : α → β) (o : Outcome α) : Outcome β :=
  { o with energy := f o.energy, bestTrace := o.bestTrace.map f }

def Searched.map (f : α → β) (found : Searched α n) : Searched β n :=
  ⟨found.outcome.map f, found.bits, found.effort⟩

def Scan.map (f : α → β) : Scan α n → Scan β n
  | .improving v effort => .improving v effort
  | .exhausted nearMiss effort => .exhausted (nearMiss.map fun held => (held.1, f held.2)) effort

theorem Target.reached_map (e : Embedding α β) (target : Option (Target α)) (energy : α) :
    reached (target.map (Target.map e)) (e energy) = reached target energy := by
  cases target with
  | none => rfl
  | some t =>
      refine decide_eq_decide.mpr ?_
      change Coefficient.signed t.findMax (e t.value) ≤ e energy ↔ t.threshold ≤ energy
      rw [← e.map_signed]
      exact e.le_iff

theorem SearchState.nearer_map (e : Embedding α β) (held : Option (Fin n × α)) (v : Fin n)
    (energy : α) :
    nearer (held.map fun held => (held.1, e held.2)) v (e energy) =
      (nearer held v energy).map fun held => (held.1, e held.2) := by
  cases held with
  | none => rfl
  | some most =>
      unfold nearer
      by_cases more : most.2 < energy
      · simp only [Option.map_some, if_pos more, if_pos (e.lt_iff.mpr more)]
      · simp only [Option.map_some, if_neg more, if_neg (mt e.lt_iff.mp more)]

section Transport

variable [Generator γ] {e : Embedding α β} {q : Qubo α} {q' : Qubo β} (c : q.Corresponds e q' n)

include c

def Tracked.transport (s : Tracked q n) : Tracked q' n :=
  ⟨c.fits', s.bits, e s.energy, s.costs.map e⟩

def Walk.transport (walk : Walk q n) : Walk q' n := ⟨walk.current.transport c, walk.effort⟩

namespace Tracked

theorem get_costs_transport (s : Tracked q n) (v : Fin n) :
    (s.transport c).costs.get v = e (s.costs.get v) :=
  Vector.getElem_map e v.isLt

theorem ofAssignmentWithin_transport (x : Assignment n) :
    ofAssignmentWithin q' c.fits' x = (ofAssignmentWithin q c.fits x).transport c := by
  unfold ofAssignmentWithin transport
  rw [c.energyWithin_eq, c.flipCostsWithin_eq]

theorem flip_transport (s : Tracked q n) (v : Fin n) :
    (s.transport c).flip v = (s.flip v).transport c := by
  have energy_eq : e s.energy + (s.transport c).costs.get v = e (s.energy + s.costs.get v) := by
    rw [get_costs_transport, e.map_add]
  unfold flip
  refine congrArg₂ (Tracked.mk c.fits' _) energy_eq ?_
  rw [Vector.map_ofFn]
  apply congrArg Vector.ofFn
  funext k
  by_cases same : k = v
  · simp only [Function.comp_apply, if_pos same, get_costs_transport, e.map_neg]
  · simp only [Function.comp_apply, if_neg same, get_costs_transport, e.map_add, e.map_signed,
      ← c.coupling_eq]
    rfl

end Tracked

namespace Walk

theorem visit_transport (walk : Walk q n) (toggled : List (Fin n)) (v : Fin n) :
    visit (walk.transport c, toggled) v =
      ((visit (walk, toggled) v).1.transport c, (visit (walk, toggled) v).2) := by
  have raises_iff : 0 < (walk.transport c).current.costs.get v ↔ 0 < walk.current.costs.get v := by
    refine Iff.trans ?_ e.pos_iff
    rw [← walk.current.get_costs_transport c v]
    rfl
  by_cases raises : 0 < walk.current.costs.get v
  · rw [visit_of_pos raises, visit_of_pos (raises_iff.mpr raises), transport,
      Tracked.flip_transport]
    rfl
  · rw [visit_of_not_pos raises, visit_of_not_pos (mt raises_iff.mp raises)]
    rfl

theorem sweep_transport (walk : Walk q n) (order : List (Fin n)) :
    (walk.transport c).sweep order = ((walk.sweep order).1.transport c, (walk.sweep order).2) :=
  sweep_of_visits (transport c) (visit_transport c) walk order

theorem climbFrom_transport (redraws sweeps : Nat) (order : Vector (Fin n) n) (walk : Walk q n) :
    (climbFrom redraws sweeps order (walk.transport c) : Attempt γ _) =
      transport c <$> climbFrom redraws sweeps order walk := by
  induction sweeps generalizing order walk with
  | zero => rfl
  | succ sweeps ih =>
      unfold climbFrom
      simp only [map_bind, sweep_transport]
      refine bind_congr fun swept => ?_
      cases swept_eq : walk.sweep swept.toList with
      | mk last toggled =>
          refine bind_congr fun _ => ?_
          cases toggled with
          | nil => exact (map_pure _ last).symm
          | cons v rest => exact ih swept last

theorem climb_transport (limits : Limits) (walk : Walk q n) :
    (climb limits (walk.transport c) : Attempt γ _) = transport c <$> climb limits walk :=
  climbFrom_transport c _ _ _ walk

end Walk

theorem localOptimum_transport (limits : Limits) (x : Assignment n) (effort : Effort) :
    (localOptimum limits q' x effort : Attempt γ _) =
      Walk.transport c <$> localOptimum limits q x effort := by
  unfold localOptimum
  rw [Tracked.ofAssignment_of_fits c.fits, Tracked.ofAssignment_of_fits c.fits',
    Tracked.ofAssignmentWithin_transport c x, map_bind]
  exact Walk.climb_transport c limits ⟨Tracked.ofAssignmentWithin q c.fits x, effort⟩

/-! ### Tabu search -/

namespace SearchState

def transport (s : SearchState q n) : SearchState q' n where
  walk := s.walk.transport c
  best := s.best
  bestEnergy := e s.bestEnergy
  trace := s.trace.map e
  order := s.order
  tabu := s.tabu
  budget := s.budget
  iterations := s.iterations
  moves := s.moves
  targetReached := s.targetReached

theorem scan_transport (tabu : TabuList n) (current : Tracked q n) (best : α)
    (order : List (Fin n)) (held : Option (Fin n × α)) (effort : Effort) :
    scan tabu (current.transport c) (e best) order (held.map fun held => (held.1, e held.2))
        effort =
      (scan tabu current best order held effort).map e := by
  induction order generalizing held effort with
  | nil => rfl
  | cons v rest ih =>
      have candidate_eq : (current.transport c).energy + (current.transport c).costs.get v =
          e (current.energy + current.costs.get v) := by
        rw [current.get_costs_transport c, e.map_add]
        rfl
      unfold scan
      cases tabu.forbids v with
      | true => exact ih held effort
      | false =>
          simp only [Bool.false_eq_true, if_false, candidate_eq]
          by_cases beats : best < current.energy + current.costs.get v
          · rw [if_pos beats, if_pos (e.lt_iff.mpr beats)]
            rfl
          · rw [if_neg beats, if_neg (mt e.lt_iff.mp beats), nearer_map]
            exact ih _ effort.tick

theorem record_transport (s : SearchState q n) (walk : Walk q n) :
    (s.transport c).record (walk.transport c) = (s.record walk).transport c := by
  have order_eq : ranking (walk.transport c).current.costs = ranking walk.current.costs :=
    e.ranking_map walk.current.costs
  have trace_eq : s.trace.map e ++ [e walk.current.energy] =
      (s.trace ++ [walk.current.energy]).map e := by
    rw [List.map_append, List.map_singleton]
  unfold record transport
  rw [order_eq, ← trace_eq]
  rfl

theorem settle_transport (s : SearchState q n) (v : Fin n) :
    (settle (s.transport c) v : Attempt γ _) = transport c <$> settle s v := by
  unfold settle
  simp only [map_bind, map_pure]
  rfl

theorem improve_transport (limits : Limits) (target : Option (Target α)) (s : SearchState q n)
    (v : Fin n) (effort : Effort) :
    ((s.transport c).improve limits (target.map (Target.map e)) v effort : Attempt γ _) =
      transport c <$> s.improve limits target v effort := by
  unfold improve
  have start_eq : (⟨(s.transport c).walk.current.flip v, effort⟩ : Walk q' n) =
      Walk.transport c ⟨s.walk.current.flip v, effort⟩ := by
    unfold Walk.transport
    rw [← Tracked.flip_transport]
    rfl
  rw [start_eq, Walk.climb_transport, bind_map_left, map_bind]
  refine bind_congr fun walk => ?_
  rw [record_transport]
  have met_eq : Target.reached (target.map (Target.map e)) (walk.transport c).current.energy =
      Target.reached target walk.current.energy := Target.reached_map e target _
  rw [met_eq]
  cases Target.reached target walk.current.energy with
  | true => exact (map_pure _ _).symm
  | false =>
      simp only [Bool.false_eq_true, if_false, map_bind]
      refine bind_congr fun _ => ?_
      have budget_eq : ((s.record walk).transport c).budget.improved (walk.transport c).effort =
          (s.record walk).budget.improved walk.effort := rfl
      rw [budget_eq]
      -- Whether the budget is extended is the same on both sides, so it need not be looked at.
      generalize (s.record walk).budget.improved walk.effort = budget
      exact settle_transport c { s.record walk with budget } v

theorem divert_transport (s : SearchState q n) (v : Fin n) (effort : Effort) :
    ((s.transport c).divert v effort : Attempt γ _) = transport c <$> s.divert v effort := by
  unfold divert
  rw [← settle_transport]
  unfold transport Walk.transport
  rw [← Tracked.flip_transport]

theorem iterate_transport (limits : Limits) (target : Option (Target α)) (s : SearchState q n) :
    ((s.transport c).iterate limits (target.map (Target.map e)) : Attempt γ _) =
      transport c <$> s.iterate limits target := by
  have counted_eq : (s.transport c).countIterations 1 = (s.countIterations 1).transport c := rfl
  unfold iterate
  simp only [counted_eq]
  generalize s.countIterations 1 = counted
  have scan_eq : scan (counted.transport c).tabu (counted.transport c).walk.current
        (counted.transport c).bestEnergy (counted.transport c).order none
        (counted.transport c).walk.effort =
      (scan counted.tabu counted.walk.current counted.bestEnergy counted.order none
        counted.walk.effort).map e :=
    scan_transport c counted.tabu counted.walk.current counted.bestEnergy counted.order none
      counted.walk.effort
  rw [scan_eq]
  cases scan counted.tabu counted.walk.current counted.bestEnergy counted.order none
      counted.walk.effort with
  | improving v effort =>
      simp only [Scan.map, map_bind]
      exact bind_congr fun _ => improve_transport c limits target counted v effort
  | exhausted nearMiss effort =>
      cases nearMiss with
      | none => exact (map_pure (transport c) counted.idle).symm
      | some held =>
          simp only [Scan.map, Option.map_some, map_bind]
          exact bind_congr fun _ => divert_transport c counted held.1 effort

theorem iterateFrom_transport (limits : Limits) (target : Option (Target α)) (iterations : Nat)
    (s : SearchState q n) :
    (iterateFrom limits (target.map (Target.map e)) iterations (s.transport c) : Attempt γ _) =
      transport c <$> iterateFrom limits target iterations s :=
  repeatUntil.map_state _ (fun _ => rfl) (iterate_transport c limits target) iterations s

theorem ofWalk_transport (p : TabuSearch α) (ceiling : Nat) (walk : Walk q n) :
    ofWalk (p.map e) ceiling (walk.transport c) = (ofWalk p ceiling walk).transport c := by
  have order_eq : ranking (walk.transport c).current.costs = ranking walk.current.costs :=
    e.ranking_map walk.current.costs
  have reached_eq : Target.reached (p.map e).target (walk.transport c).current.energy =
      Target.reached p.target walk.current.energy := Target.reached_map e p.target _
  simp only [ofWalk, transport, order_eq, reached_eq]
  rfl

theorem searched_transport (s : SearchState q n) (start : Effort) :
    (s.transport c).searched start = (s.searched start).map e := by
  have energy_eq : q'.energyWithin c.fits' s.best = e (q.energyWithin c.fits s.best) :=
    c.energyWithin_eq s.best
  unfold searched transport Searched.map Outcome.map
  rw [← energy_eq]
  rfl

end SearchState

theorem TabuSearch.runWithin_transport (limits : Limits) (p : TabuSearch α) (x : Assignment n)
    (effort : Effort) (ceiling : Nat) :
    ((p.map e).runWithin limits q' c.fits' x effort ceiling : Attempt γ _) =
      Searched.map e <$> p.runWithin limits q c.fits x effort ceiling := by
  unfold runWithin
  by_cases empty : n = 0
  · have reached_eq : Target.reached (p.map e).target (0 : β) = Target.reached p.target 0 := by
      rw [← e.map_zero]
      exact Target.reached_map e p.target 0
    have nothing_eq : (p.map e).withoutVariables x effort ceiling =
        (p.withoutVariables x effort ceiling).map e := by
      simp only [withoutVariables, Searched.map, Outcome.map, reached_eq, List.map_cons,
        List.map_nil, e.map_zero]
    rw [if_pos empty, if_pos empty, nothing_eq, map_pure]
  · have start_eq : (⟨Tracked.ofAssignmentWithin q' c.fits' x, effort⟩ : Walk q' n) =
        Walk.transport c ⟨Tracked.ofAssignmentWithin q c.fits x, effort⟩ := by
      rw [Tracked.ofAssignmentWithin_transport c x]
      rfl
    rw [if_neg empty, if_neg empty, start_eq, Walk.climb_transport, bind_map_left, map_bind]
    refine bind_congr fun walk => ?_
    rw [SearchState.ofWalk_transport]
    have iterates_eq := SearchState.iterateFrom_transport (γ := γ) c limits p.target
      limits.iterations (SearchState.ofWalk p ceiling walk)
    refine (congrArg (· >>= _) iterates_eq).trans ?_
    simp only [bind_map_left, map_bind, map_pure, SearchState.searched_transport]

theorem TabuSearch.run_transport (limits : Limits) (p : TabuSearch α) (x : Assignment n)
    (effort : Effort) (ceiling : Nat) :
    ((p.map e).run limits q' x effort ceiling : Attempt γ _) =
      Searched.map e <$> p.run limits q x effort ceiling := by
  unfold run
  rw [Qubo.checkLength_of_fits c.fits, Qubo.checkLength_of_fits c.fits', map_bind]
  exact runWithin_transport c limits p x effort ceiling

/-! ### The solver -/

def Parameters.map (f : α → β) (p : Parameters α) : Parameters β :=
  { p with target := p.target.map f }

def Progress.map (f : α → β) (s : Progress α n) : Progress β n :=
  { s with bestEnergy := f s.bestEnergy }

def Solution.map (f : α → β) (solution : Solution α n) : Solution β n :=
  { solution with energy := f solution.energy }

theorem Parameters.maximized_corresponds (p : Parameters α) :
    (p.maximized q).Corresponds e ((p.map e).maximized q') n := by
  unfold maximized
  cases upward : p.findMax with
  | true =>
      have upward' : (p.map e).findMax = true := upward
      rw [upward', if_pos rfl, if_pos rfl]
      exact c
  | false =>
      have downward' : (p.map e).findMax = false := upward
      rw [downward', if_neg Bool.false_ne_true, if_neg Bool.false_ne_true]
      exact c.negated

namespace Solver

theorem searchWhole_transport (limits : Limits) (p : Parameters α) (x : Assignment n) :
    (searchWhole limits (p.map e) q' x : ExceptT Fault (Draw γ) _) =
      Searched.map e <$> searchWhole limits p q x := by
  have search_eq : (p.map e).wholeSearch n = (p.wholeSearch n).map e := by
    unfold Parameters.wholeSearch TabuSearch.map Parameters.map
    rw [Option.map_map, Option.map_map]
    rfl
  unfold searchWhole
  rw [search_eq, ← Attempt.adapt_map, ← TabuSearch.run_transport c]
  rfl

theorem searchChunk_transport (limits : Limits) (p : Parameters α) (state : Partial n)
    (chunk : List (Fin n)) :
    (searchChunk limits (p.map e) q' state chunk : ExceptT Fault (Draw γ) _) =
      searchChunk limits p q state chunk := by
  rcases state with ⟨x, spent⟩
  unfold searchChunk
  simp only [reduce_of_corresponds c]
  cases reduced : reduce (insertionSort (fun i j => decide (i ≤ j)) (chunk.map (·.val))) q x with
  | error fault => rfl
  | ok sub =>
      have search_eq := TabuSearch.run_transport (γ := γ)
        (Qubo.Corresponds.map e (length_le_of_reduce reduced)) limits (p.subproblemSearch n)
        sub.solution Effort.zero p.subproblemBudget
      have found_eq : ExceptT.adapt Breakdown.fault (((p.map e).subproblemSearch n).run limits
            (sub.map e).qubo (sub.map e).solution Effort.zero (p.map e).subproblemBudget) =
          Searched.map e <$> ExceptT.adapt Breakdown.fault (((p.subproblemSearch n).run limits
            sub.qubo sub.solution Effort.zero p.subproblemBudget) : Attempt γ _) := by
        rw [← Attempt.adapt_map, ← search_eq]
        rfl
      exact (congrArg (· >>= _) found_eq).trans (bind_map_left _ _ _)

theorem decompose_transport (limits : Limits) (p : Parameters α) (x : Assignment n) :
    (decompose limits (p.map e) q' x : ExceptT Fault (Draw γ) _) = decompose limits p q x := by
  have steps : (searchChunk limits (p.map e) q' : _ → _ → ExceptT Fault (Draw γ) (Partial n)) =
      searchChunk limits p q :=
    funext fun state => funext fun chunk => searchChunk_transport c limits p state chunk
  unfold decompose
  rw [Qubo.flipCosts_of_fits c.fits, Qubo.flipCosts_of_fits c.fits', c.flipCostsWithin_eq, steps]
  change (chunks p.subproblemSize (ranking ((q.flipCostsWithin c.fits x).map e))).foldlM
      (searchChunk limits p q) (x, 0) = _
  rw [e.ranking_map]
  rfl

theorem diversify_transport (limits : Limits) (p : Parameters α) (x : Assignment n) :
    (diversify limits (p.map e) q' x : ExceptT Fault (Draw γ) _) = diversify limits p q x := by
  unfold diversify
  rw [decompose_transport c]
  rfl

omit c in
theorem judge_map (e : Embedding α β) (s : Progress α n) (spent : Nat) (found : Searched α n) :
    judge (s.map e) spent (found.map e) = (judge s spent found).map e := by
  have better_iff : (s.map e).bestEnergy < (found.map e).outcome.energy ↔
      s.bestEnergy < found.outcome.energy := e.lt_iff
  unfold judge
  by_cases better : s.bestEnergy < found.outcome.energy
  · simp only [if_pos better, if_pos (better_iff.mpr better)]
    rfl
  · simp only [if_neg better, if_neg (mt better_iff.mp better)]
    rfl

theorem pass_transport (limits : Limits) (p : Parameters α) (s : Progress α n) :
    (pass limits (p.map e) q' (s.map e) : ExceptT Fault (Draw γ) _) =
      Progress.map e <$> pass limits p q s := by
  have current_eq : (s.map e).current = s.current := rfl
  unfold pass
  rw [current_eq, diversify_transport c, map_bind]
  refine bind_congr fun changed => ?_
  simp only [searchWhole_transport c, bind_map_left, map_bind, map_pure, judge_map]

theorem course_transport (limits : Limits) (p : Parameters α) :
    (course limits (p.map e) q' n : ExceptT Fault (Draw γ) _) =
      Progress.map e <$> course limits p q n := by
  have passes : ∀ s : Progress α n,
      (passesFrom limits (p.map e) q' limits.passes (s.map e) : ExceptT Fault (Draw γ) _) =
        Progress.map e <$> passesFrom limits p q limits.passes s := fun s =>
    repeatUntil.map_state _ (fun _ => rfl) (pass_transport c limits p) limits.passes s
  have starts : ∀ found : Searched α n, started (found.map e) = (started found).map e :=
    fun _ => rfl
  unfold course
  simp only [searchWhole_transport c, bind_map_left, map_bind, starts, passes]

end Solver

end Transport

theorem solve_transport [Generator γ] {e : Embedding α β} {size : Nat}
    {cells : Vector α (size * size)} {cells' : Vector β (size * size)}
    (c : Qubo.Corresponds e ⟨size, cells⟩ ⟨size, cells'⟩ size) (limits : Limits)
    (p : Parameters α) :
    (solve limits (p.map e) ⟨size, cells'⟩ : ExceptT SolveError (Draw γ) (Solution β size)) =
      Solution.map e <$> solve limits p ⟨size, cells⟩ := by
  have finishes : ∀ s : Progress α size,
      Solver.finished (p.map e) (s.map e) = (Solver.finished p s).map e := by
    intro s
    unfold Solver.finished Solution.map
    rw [e.map_signed]
    rfl
  unfold solve
  rw [map_bind]
  refine bind_congr fun _ => ?_
  have course_eq := Solver.course_transport (γ := γ) (p.maximized_corresponds c) limits p
  have adapted_eq := congrArg (ExceptT.adapt SolveError.fault) course_eq
  rw [Attempt.adapt_map] at adapted_eq
  refine (congrArg (· >>= _) adapted_eq).trans ?_
  simp only [bind_map_left, map_bind, map_pure, finishes]

end BinaryQuadratic
