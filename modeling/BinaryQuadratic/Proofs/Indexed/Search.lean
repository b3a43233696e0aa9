import BinaryQuadratic.Proofs.Climb
import BinaryQuadratic.Proofs.Countdown
import BinaryQuadratic.Proofs.Indexed.Evaluation
import BinaryQuadratic.Proofs.Ranking
import BinaryQuadratic.Proofs.Repetition
import BinaryQuadratic.Proofs.Shuffling
import BinaryQuadratic.Tabu.Search

set_option autoImplicit false

/-! Local search and tabu search with every index looked at. The lists of a search stay as long as the
matrix has variables in use, and its order lists nothing else, so no index is ever out of range. -/

namespace BinaryQuadratic

variable {α β γ : Type} [Coefficient α] [Generator γ] {n : Nat}

namespace Indexed

/-- A fault in the course of a search. -/
def orBreak (effort : Effort) (result : Except Fault β) : Attempt γ β :=
  liftExcept (result.mapError (Breakdown.mk · effort))

def reorder (redraws : Nat) (items : List β) : Draw γ (List β) :=
  return (← shuffle redraws ⟨items.toArray, rfl⟩).toList

def ranking (values : List α) : List Nat :=
  (insertionSort (fun a b => Coefficient.ranksBefore a.1 b.1) values.zipIdx).map (·.2)

structure Walk (α : Type) where
  current : Tracked α
  effort : Effort

namespace Walk

def visit (q : Qubo α) (state : Walk α × List Nat) (v : Nat) :
    Except Fault (Walk α × List Nat) := do
  let (walk, toggled) := state
  let effort := walk.effort.tick
  if 0 < (← readAt walk.current.costs v) then
    return (⟨← flip q walk.current v, effort⟩, v :: toggled)
  else return (⟨walk.current, effort⟩, toggled)

def climbFrom (redraws : Nat) (q : Qubo α) : (sweeps : Nat) → List Nat → Walk α → Attempt γ (Walk α)
  | 0, _, _ => monadLift (Draw.abandoned : Draw γ (Walk α))
  | sweeps + 1, order, walk => do
    let order ← (reorder redraws order : Draw γ (List Nat))
    let (walk, toggled) ← orBreak walk.effort (order.foldlM (visit q) (walk, []))
    liftExcept walk.effort.checked
    match toggled with
    | [] => pure walk
    | _ :: _ => climbFrom redraws q sweeps order walk

def climb (limits : Limits) (q : Qubo α) (walk : Walk α) : Attempt γ (Walk α) :=
  climbFrom limits.redraws q limits.sweeps (List.range walk.current.bits.length) walk

end Walk

structure SearchState (α : Type) where
  walk : Walk α
  best : List Bool
  bestEnergy : α
  trace : List α
  order : List Nat
  tenure : Nat
  countdown : List Nat
  budget : Budget
  iterations : Nat
  moves : Nat
  targetReached : Bool

inductive Scan (α : Type)
  | improving (v : Nat) (effort : Effort)
  | exhausted (nearMiss : Option (Nat × α)) (effort : Effort)

structure Searched (α : Type) where
  outcome : Outcome α
  bits : List Bool
  effort : Effort

namespace SearchState

def nearer (nearMiss : Option (Nat × α)) (v : Nat) (energy : α) : Option (Nat × α) :=
  match nearMiss with
  | none => some (v, energy)
  | some (u, most) => if most < energy then some (v, energy) else some (u, most)

/-- The variables are looked up in the order by their ranks. -/
def scan (countdown : List Nat) (current : Tracked α) (best : α) (order : List Nat) :
    (ranks : List Nat) → Option (Nat × α) → Effort → Except Fault (Scan α)
  | [], nearMiss, effort => return .exhausted nearMiss effort
  | rank :: ranks, nearMiss, effort => do
    let v ← readAt order rank
    if 0 < (← readAt countdown v) then scan countdown current best order ranks nearMiss effort
    else
      let energy := current.energy + (← readAt current.costs v)
      if best < energy then return .improving v effort.tick
      else scan countdown current best order ranks (nearer nearMiss v energy) effort.tick

def countIterations (s : SearchState α) (count : Nat) : SearchState α :=
  { s with iterations := min (s.iterations + count) greatestWord }

def settle (s : SearchState α) (v : Nat) : Attempt γ (SearchState α) := do
  let longer ← (Draw.total Generator.coin : Draw γ Bool)
  let count := if longer then min (s.tenure + 1) greatestWord else s.tenure - 1
  let countdown ← orBreak s.walk.effort (writeAt (s.countdown.map (· - 1)) v count)
  return { s with countdown }

/-- The best bits are copied from the present ones. -/
def record (s : SearchState α) (walk : Walk α) : Except Fault (SearchState α) := do
  let best ← overwrite s.best walk.current.bits
  return { s with
    walk
    best
    bestEnergy := walk.current.energy
    trace := s.trace ++ [walk.current.energy]
    order := ranking walk.current.costs
    moves := s.moves + 1 }

def improve (limits : Limits) (target : Option (Target α)) (q : Qubo α) (s : SearchState α)
    (v : Nat) (effort : Effort) : Attempt γ (SearchState α) := do
  let current ← orBreak effort (flip q s.walk.current v)
  let walk ← Walk.climb limits q ⟨current, effort⟩
  let s ← orBreak walk.effort (s.record walk)
  if Target.reached target walk.current.energy then return { s with targetReached := true }
  else
    let budget := s.budget.improved walk.effort
    liftExcept (budget.checked walk.effort)
    settle { s with budget } v

def divert (q : Qubo α) (s : SearchState α) (v : Nat) (effort : Effort) :
    Attempt γ (SearchState α) := do
  let current ← orBreak effort (flip q s.walk.current v)
  settle { s with walk := ⟨current, effort⟩, moves := s.moves + 1 } v

def idle (s : SearchState α) : SearchState α :=
  let shortest := s.countdown.min?.getD 0
  { s with countdown := s.countdown.map (· - shortest) }.countIterations (shortest - 1)

def iterate (limits : Limits) (target : Option (Target α)) (q : Qubo α) (s : SearchState α) :
    Attempt γ (SearchState α) := do
  let s := s.countIterations 1
  let scanned ← orBreak s.walk.effort (scan s.countdown s.walk.current s.bestEnergy s.order
    (List.range s.order.length) none s.walk.effort)
  match scanned with
  | .improving v effort =>
    liftExcept effort.checked
    s.improve limits target q v effort
  | .exhausted (some (v, _)) effort =>
    liftExcept effort.checked
    s.divert q v effort
  | .exhausted none _ => return s.idle

def isFinished (s : SearchState α) : Bool := s.targetReached || s.budget.isSpent s.walk.effort

def iterateFrom (limits : Limits) (target : Option (Target α)) (q : Qubo α) (iterations : Nat)
    (s : SearchState α) : Attempt γ (SearchState α) :=
  repeatUntil isFinished (iterate limits target q) iterations s

def ofWalk (p : TabuSearch α) (ceiling : Nat) (walk : Walk α) : SearchState α :=
  let energy := walk.current.energy
  { walk
    best := walk.current.bits
    bestEnergy := energy
    trace := [energy]
    order := ranking walk.current.costs
    tenure := p.tenure
    countdown := List.replicate walk.current.bits.length 0
    budget := Budget.ofCeiling ceiling walk.effort p.maxExtensions
    iterations := 0
    moves := 0
    targetReached := Target.reached p.target energy }

/-- The best bits are copied over those that the search was given, and evaluated there. -/
def searched (q : Qubo α) (bits : List Bool) (start : Effort) (s : SearchState α) :
    Except Fault (Searched α) := do
  let bits ← overwrite bits s.best
  let energy ← energy q bits
  return {
    outcome :=
      { energy
        flips := s.walk.effort.total - start.total
        ceiling := s.budget.ceiling
        targetReached := s.targetReached
        bestTrace := s.trace
        iterations := s.iterations
        moves := s.moves }
    bits
    effort := s.walk.effort }

end SearchState

def withoutVariables (p : TabuSearch α) (bits : List Bool) (effort : Effort) (ceiling : Nat) :
    Searched α :=
  { outcome :=
      { energy := 0
        flips := 0
        ceiling
        targetReached := Target.reached p.target 0
        bestTrace := [0]
        iterations := 0
        moves := 0 }
    bits
    effort }

def search (limits : Limits) (p : TabuSearch α) (q : Qubo α) (bits : List Bool) (effort : Effort)
    (ceiling : Nat) : Attempt γ (Searched α) :=
  if bits.length = 0 then pure (withoutVariables p bits effort ceiling)
  else do
    let start ← orBreak effort (track q bits)
    let walk ← Walk.climb limits q ⟨start, effort⟩
    let finished ← SearchState.iterateFrom limits p.target q limits.iterations
      (SearchState.ofWalk p ceiling walk)
    orBreak finished.walk.effort (finished.searched q bits effort)

omit [Generator γ] in
theorem orBreak_ok (effort : Effort) (value : β) :
    (orBreak effort (.ok value) : Attempt γ β) = pure value :=
  rfl

theorem reorder_toList (redraws : Nat) (items : Vector β n) :
    (reorder redraws items.toList : Draw γ (List β)) = Vector.toList <$> shuffle redraws items := by
  rcases items with ⟨⟨items⟩, rfl⟩
  exact bind_pure_comp _ _

theorem reorder_map_val (redraws : Nat) (order : Vector (Fin n) n) :
    (reorder redraws (order.toList.map Fin.val) : Draw γ (List Nat)) =
      (fun order => order.toList.map Fin.val) <$> shuffle redraws order := by
  have mapped : order.toList.map Fin.val = (order.map Fin.val).toList := Vector.toList_map.symm
  rw [mapped, reorder_toList, shuffle_map, ← comp_map]
  exact map_congr fun order => Vector.toList_map

omit [Generator γ] in
theorem ranking_toList (values : Vector α n) :
    ranking values.toList = (BinaryQuadratic.ranking values).map Fin.val := by
  have pairs : values.toList.zipIdx = (List.finRange n).map fun v => (values.get v, v.val) := by
    refine List.ext_getElem (by simp) fun i left right => ?_
    rw [List.getElem_zipIdx, List.getElem_map, Vector.getElem_toList, List.getElem_finRange,
      Nat.zero_add]
    rfl
  unfold ranking BinaryQuadratic.ranking
  rw [pairs, insertionSort_map fun _ _ => rfl, List.map_map]
  rfl

end Indexed

/-! ### Local search -/

section Commuting

variable {q : Qubo α} (counted : q.size ≤ greatestWord)

def Walk.listed (walk : Walk q n) : Indexed.Walk α := ⟨walk.current.listed, walk.effort⟩

namespace Walk

include counted

omit [Generator γ] in
theorem visit_listed (walk : Walk q n) (toggled : List (Fin n)) (v : Fin n) :
    Indexed.Walk.visit q (walk.listed, toggled.map Fin.val) v.val =
      .ok ((visit (walk, toggled) v).1.listed, (visit (walk, toggled) v).2.map Fin.val) := by
  have cost_eq : Indexed.readAt walk.listed.current.costs v.val = .ok (walk.current.costs.get v) :=
    Indexed.readAt_toList walk.current.costs v
  have flip_eq : Indexed.flip q walk.listed.current v.val = .ok (walk.current.flip v).listed :=
    Indexed.flip_eq_ok counted walk.current v
  unfold Indexed.Walk.visit
  simp only [cost_eq, Indexed.ok_bind]
  by_cases raises : 0 < walk.current.costs.get v
  · rw [if_pos raises, flip_eq, visit_of_pos raises]
    rfl
  · rw [if_neg raises, visit_of_not_pos raises]
    rfl

omit [Generator γ] in
theorem sweep_listed (walk : Walk q n) (order : List (Fin n)) :
    (order.map Fin.val).foldlM (Indexed.Walk.visit q) (walk.listed, []) =
      .ok ((walk.sweep order).1.listed, (walk.sweep order).2.map Fin.val) :=
  Indexed.foldlM_eq_ok (fun state => (state.1.listed, state.2.map Fin.val)) Fin.val order
    (fun state v _ => visit_listed counted state.1 state.2 v) (walk, [])

theorem climbFrom_listed (redraws sweeps : Nat) (order : Vector (Fin n) n) (walk : Walk q n) :
    (Indexed.Walk.climbFrom redraws q sweeps (order.toList.map Fin.val) walk.listed : Attempt γ _) =
      listed <$> climbFrom redraws sweeps order walk := by
  induction sweeps generalizing order walk with
  | zero => rfl
  | succ sweeps ih =>
      unfold climbFrom Indexed.Walk.climbFrom
      rw [Indexed.reorder_map_val]
      simp only [liftM_map, bind_map_left, map_bind]
      refine bind_congr fun swept => ?_
      rw [sweep_listed counted, Indexed.orBreak_ok, pure_bind]
      refine bind_congr fun _ => ?_
      cases (walk.sweep swept.toList).2 with
      | nil => exact (map_pure listed _).symm
      | cons v rest => exact ih swept _

theorem climb_listed (limits : Limits) (walk : Walk q n) :
    (Indexed.Walk.climb limits q walk.listed : Attempt γ _) = listed <$> climb limits walk := by
  have order_eq : List.range walk.listed.current.bits.length =
      (Vector.ofFn (id : Fin n → Fin n)).toList.map Fin.val := by
    rw [Vector.toList_ofFn]
    refine (congrArg List.range walk.current.bits.length_toList).trans ?_
    exact Indexed.range_eq_map_val n
  unfold Indexed.Walk.climb
  rw [order_eq]
  exact climbFrom_listed counted _ _ _ walk

end Walk

/-! ### Tabu search -/

def SearchState.listed (s : SearchState q n) : Indexed.SearchState α where
  walk := s.walk.listed
  best := s.best.toList
  bestEnergy := s.bestEnergy
  trace := s.trace
  order := s.order.map Fin.val
  tenure := s.tabu.tenure
  countdown := s.tabu.countdown.toList
  budget := s.budget
  iterations := s.iterations
  moves := s.moves
  targetReached := s.targetReached

def Scan.listed : Scan α n → Indexed.Scan α
  | .improving v effort => .improving v.val effort
  | .exhausted nearMiss effort => .exhausted (nearMiss.map fun held => (held.1.val, held.2)) effort

def Searched.listed (found : Searched α n) : Indexed.Searched α :=
  ⟨found.outcome, found.bits.toList, found.effort⟩

namespace SearchState

omit [Generator γ] in
theorem nearer_listed (held : Option (Fin n × α)) (v : Fin n) (energy : α) :
    Indexed.SearchState.nearer (held.map fun held => (held.1.val, held.2)) v.val energy =
      (nearer held v energy).map fun held => (held.1.val, held.2) := by
  cases held with
  | none => rfl
  | some most =>
      unfold nearer Indexed.SearchState.nearer
      by_cases more : most.2 < energy
      · simp only [Option.map_some, if_pos more]
      · simp only [Option.map_some, if_neg more]

omit [Generator γ] in
theorem scanFrom_listed (tabu : TabuList n) (current : Tracked q n) (best : α)
    {order passed rest : List (Fin n)} (split : order = passed ++ rest) (held : Option (Fin n × α))
    (effort : Effort) :
    Indexed.SearchState.scan tabu.countdown.toList current.listed best (order.map Fin.val)
        (List.range' passed.length rest.length) (held.map fun held => (held.1.val, held.2)) effort =
      .ok (scan tabu current best rest held effort).listed := by
  induction rest generalizing passed held effort with
  | nil => rfl
  | cons v rest ih =>
      have ranked : Indexed.readAt (order.map Fin.val) passed.length = .ok v.val := by
        unfold Indexed.readAt
        simp [split]
      have count_eq : Indexed.readAt tabu.countdown.toList v.val = .ok (tabu.countdown.get v) :=
        Indexed.readAt_toList tabu.countdown v
      have cost_eq : Indexed.readAt current.listed.costs v.val = .ok (current.costs.get v) :=
        Indexed.readAt_toList current.costs v
      have split' : order = (passed ++ [v]) ++ rest := by
        rw [split, List.append_assoc, List.singleton_append]
      have onward := ih split'
      rw [List.length_append, List.length_singleton] at onward
      rw [List.length_cons, List.range'_succ]
      unfold scan Indexed.SearchState.scan
      have energy_eq : current.listed.energy = current.energy := rfl
      simp only [ranked, count_eq, cost_eq, energy_eq, Indexed.ok_bind]
      by_cases forbidden : 0 < tabu.countdown.get v
      · rw [if_pos forbidden, if_pos (TabuList.forbids_iff.mpr forbidden)]
        exact onward held effort
      · rw [if_neg forbidden, if_neg (mt TabuList.forbids_iff.mp forbidden)]
        by_cases beats : best < current.energy + current.costs.get v
        · rw [if_pos beats, if_pos beats]
          rfl
        · rw [if_neg beats, if_neg beats, nearer_listed]
          exact onward _ effort.tick

omit [Generator γ] in
theorem scan_listed (s : SearchState q n) :
    Indexed.SearchState.scan s.listed.countdown s.listed.walk.current s.listed.bestEnergy
        s.listed.order (List.range s.listed.order.length) none s.listed.walk.effort =
      .ok (scan s.tabu s.walk.current s.bestEnergy s.order none s.walk.effort).listed := by
  have ranks_eq : List.range s.listed.order.length = List.range' 0 s.order.length := by
    rw [← List.range_eq_range']
    exact congrArg List.range (List.length_map Fin.val)
  rw [ranks_eq]
  exact scanFrom_listed s.tabu s.walk.current s.bestEnergy (List.nil_append s.order).symm none
    s.walk.effort

omit [Coefficient α] in
theorem settle_listed (s : SearchState q n) (v : Fin n) :
    (Indexed.SearchState.settle s.listed v.val : Attempt γ _) = listed <$> settle s v := by
  have armed : ∀ longer : Bool, Indexed.writeAt (s.listed.countdown.map (· - 1)) v.val
        (if longer then min (s.listed.tenure + 1) greatestWord else s.listed.tenure - 1) =
      .ok (s.tabu.relax.arm v longer).countdown.toList := by
    intro longer
    have relaxed : s.listed.countdown.map (· - 1) = s.tabu.relax.countdown.toList :=
      Vector.toList_map.symm
    rw [relaxed]
    exact Indexed.writeAt_toList s.tabu.relax.countdown v _
  unfold settle Indexed.SearchState.settle
  rw [map_bind]
  refine bind_congr fun longer => ?_
  simp only [armed, Indexed.orBreak_ok, pure_bind, map_pure]
  rfl

omit [Generator γ] in
theorem record_listed (s : SearchState q n) (walk : Walk q n) :
    Indexed.SearchState.record s.listed walk.listed = .ok (s.record walk).listed := by
  have copied : Indexed.overwrite s.listed.best walk.listed.current.bits =
      .ok walk.current.bits.toList := Indexed.overwrite_toList s.best walk.current.bits
  have ranked : Indexed.ranking walk.listed.current.costs =
      (ranking walk.current.costs).map Fin.val := Indexed.ranking_toList walk.current.costs
  unfold Indexed.SearchState.record
  rw [copied, ranked]
  rfl

include counted

theorem improve_listed (limits : Limits) (target : Option (Target α)) (s : SearchState q n)
    (v : Fin n) (effort : Effort) :
    (Indexed.SearchState.improve limits target q s.listed v.val effort : Attempt γ _) =
      listed <$> s.improve limits target v effort := by
  have flipped : Indexed.flip q s.listed.walk.current v.val = .ok (s.walk.current.flip v).listed :=
    Indexed.flip_eq_ok counted s.walk.current v
  have start_eq : (⟨(s.walk.current.flip v).listed, effort⟩ : Indexed.Walk α) =
      Walk.listed ⟨s.walk.current.flip v, effort⟩ := rfl
  unfold improve Indexed.SearchState.improve
  rw [flipped, Indexed.orBreak_ok, pure_bind, start_eq, Walk.climb_listed counted, bind_map_left,
    map_bind]
  refine bind_congr fun walk => ?_
  rw [record_listed, Indexed.orBreak_ok, pure_bind]
  have met_eq : Target.reached target walk.listed.current.energy =
      Target.reached target walk.current.energy := rfl
  rw [met_eq]
  cases Target.reached target walk.current.energy with
  | true => exact (map_pure _ _).symm
  | false =>
      simp only [Bool.false_eq_true, if_false, map_bind]
      refine bind_congr fun _ => ?_
      have budget_eq : (s.record walk).listed.budget.improved walk.listed.effort =
          (s.record walk).budget.improved walk.effort := rfl
      rw [budget_eq]
      -- Whether the budget is extended is the same on both sides, so it need not be looked at.
      generalize (s.record walk).budget.improved walk.effort = budget
      exact settle_listed { s.record walk with budget } v

theorem divert_listed (s : SearchState q n) (v : Fin n) (effort : Effort) :
    (Indexed.SearchState.divert q s.listed v.val effort : Attempt γ _) =
      listed <$> s.divert v effort := by
  have flipped : Indexed.flip q s.listed.walk.current v.val = .ok (s.walk.current.flip v).listed :=
    Indexed.flip_eq_ok counted s.walk.current v
  unfold divert Indexed.SearchState.divert
  rw [flipped, Indexed.orBreak_ok, pure_bind, ← settle_listed]
  rfl

omit [Coefficient α] [Generator γ] counted in
theorem idle_listed (s : SearchState q n) : s.listed.idle = s.idle.listed := by
  have lowered : s.tabu.countdown.toList.map (· - s.tabu.shortest) =
      s.tabu.skipIdle.countdown.toList := Vector.toList_map.symm
  change Indexed.SearchState.countIterations
    { s.listed with countdown := s.tabu.countdown.toList.map (· - s.tabu.shortest) }
    (s.tabu.shortest - 1) = _
  rw [lowered]
  rfl

theorem iterate_listed (limits : Limits) (target : Option (Target α)) (s : SearchState q n) :
    (Indexed.SearchState.iterate limits target q s.listed : Attempt γ _) =
      listed <$> s.iterate limits target := by
  have counted_eq : s.listed.countIterations 1 = (s.countIterations 1).listed := rfl
  unfold iterate Indexed.SearchState.iterate
  simp only [counted_eq]
  generalize s.countIterations 1 = begun
  rw [scan_listed, Indexed.orBreak_ok, pure_bind]
  cases scan begun.tabu begun.walk.current begun.bestEnergy begun.order none begun.walk.effort with
  | improving v effort =>
      simp only [Scan.listed, map_bind]
      exact bind_congr fun _ => improve_listed counted limits target begun v effort
  | exhausted nearMiss effort =>
      cases nearMiss with
      | none =>
          change pure begun.listed.idle = listed <$> pure begun.idle
          rw [idle_listed, map_pure]
      | some held =>
          simp only [Scan.listed, Option.map_some, map_bind]
          exact bind_congr fun _ => divert_listed counted begun held.1 effort

theorem iterateFrom_listed (limits : Limits) (target : Option (Target α)) (iterations : Nat)
    (s : SearchState q n) :
    (Indexed.SearchState.iterateFrom limits target q iterations s.listed : Attempt γ _) =
      listed <$> iterateFrom limits target iterations s :=
  repeatUntil.map_state _ (fun _ => rfl) (iterate_listed counted limits target) iterations s

omit [Generator γ] counted in
theorem ofWalk_listed (p : TabuSearch α) (ceiling : Nat) (walk : Walk q n) :
    Indexed.SearchState.ofWalk p ceiling walk.listed = (ofWalk p ceiling walk).listed := by
  have ranked : Indexed.ranking walk.listed.current.costs =
      (ranking walk.current.costs).map Fin.val := Indexed.ranking_toList walk.current.costs
  have countdown_eq : List.replicate walk.listed.current.bits.length 0 =
      (TabuList.empty n p.tenure).countdown.toList :=
    (congrArg (List.replicate · 0) walk.current.bits.length_toList).trans
      Vector.toList_replicate.symm
  simp only [Indexed.SearchState.ofWalk, ranked, countdown_eq]
  rfl

omit [Generator γ] in
theorem searched_listed (x : Assignment n) (start : Effort) (s : SearchState q n) :
    Indexed.SearchState.searched q x.toList start s.listed = .ok (s.searched start).listed := by
  have copied : Indexed.overwrite x.toList s.listed.best = .ok s.best.toList :=
    Indexed.overwrite_toList x s.best
  have evaluated : Indexed.energy q s.best.toList =
      .ok (q.energyWithin s.walk.current.fits s.best) :=
    Indexed.energy_eq_ok s.walk.current.fits counted s.best
  unfold Indexed.SearchState.searched
  simp only [copied, Indexed.ok_bind, evaluated]
  rfl

end SearchState

include counted

theorem TabuSearch.run_listed (fits : n ≤ q.size) (limits : Limits) (p : TabuSearch α)
    (x : Assignment n) (effort : Effort) (ceiling : Nat) :
    (Indexed.search limits p q x.toList effort ceiling : Attempt γ _) =
      Searched.listed <$> p.run limits q x effort ceiling := by
  unfold Indexed.search run
  rw [Vector.length_toList, Qubo.checkLength_of_fits fits]
  change _ = Searched.listed <$> p.runWithin limits q fits x effort ceiling
  unfold runWithin
  by_cases empty : n = 0
  · rw [if_pos empty, if_pos empty, map_pure]
    rfl
  · have start_eq : (⟨(Tracked.ofAssignmentWithin q fits x).listed, effort⟩ : Indexed.Walk α) =
        Walk.listed ⟨Tracked.ofAssignmentWithin q fits x, effort⟩ := rfl
    rw [if_neg empty, if_neg empty, Indexed.track_eq_ok counted fits, Indexed.orBreak_ok, pure_bind,
      start_eq, Walk.climb_listed counted, bind_map_left, map_bind]
    refine bind_congr fun walk => ?_
    rw [SearchState.ofWalk_listed]
    have iterates_eq := SearchState.iterateFrom_listed (γ := γ) counted limits p.target
      limits.iterations (SearchState.ofWalk p ceiling walk)
    refine (congrArg (· >>= _) iterates_eq).trans ?_
    simp only [bind_map_left, map_bind, map_pure]
    refine bind_congr fun finished => ?_
    rw [SearchState.searched_listed counted]
    rfl

end Commuting

end BinaryQuadratic
