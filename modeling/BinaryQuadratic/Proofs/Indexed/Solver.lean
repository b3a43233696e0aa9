import BinaryQuadratic.Proofs.Decomposition
import BinaryQuadratic.Proofs.Indexed.Reduction
import BinaryQuadratic.Proofs.Indexed.Search
import BinaryQuadratic.Proofs.Overflow
import BinaryQuadratic.Random.Scripted
import BinaryQuadratic.Solver

set_option autoImplicit false

/-! The solver with every index looked at and every requirement tested. It does what the solver over
variables does, so none of its indices is ever out of range and none of its requirements fails. -/

namespace BinaryQuadratic

variable {α γ : Type} [Coefficient α] [Generator γ] {n : Nat}

namespace Indexed

def toggle (bits : List Bool) (v : Nat) : Except Fault (List Bool) := do
  writeAt bits v (!(← readAt bits v))

/-- There must be as many variables as are to be picked. -/
def perturb (redraws : Nat) (fraction : Binary64) (bits : List Bool) :
    ExceptT Fault (Draw γ) (List Bool) :=
  if bits.length = 0 then pure bits
  else if bound : changeCount fraction bits.length ≤ bits.length then do
    let picked ← (sample redraws (changeCount fraction bits.length) bound :
      Draw γ (List (Fin bits.length)))
    liftExcept ((picked.map Fin.val).foldlM toggle bits)
  else throw .outOfBounds

def ascend (items : List Nat) : List Nat := insertionSort (fun i j => decide (i ≤ j)) items

/-- There are no pieces of no width. -/
def pieces (width : Nat) (items : List Nat) : Except Fault (List (List Nat)) :=
  if width = 0 then .error .outOfBounds else .ok (chunks width items)

structure Progress (α : Type) where
  current : List Bool
  best : List Bool
  bestEnergy : α
  flips : Nat
  passes : Nat
  stale : Nat
  targetReached : Bool

structure Solution (α : Type) where
  bits : List Bool
  energy : α
  flips : Nat
  passes : Nat
  targetReached : Bool

namespace Solver

def searchWhole (limits : Limits) (p : Parameters α) (work : Qubo α) (bits : List Bool) :
    ExceptT Fault (Draw γ) (Searched α) :=
  ExceptT.adapt Breakdown.fault
    (search limits (p.wholeSearch bits.length) work bits Effort.zero p.budget)

def searchChunk (limits : Limits) (p : Parameters α) (work : Qubo α) (state : List Bool × Nat)
    (chunk : List Nat) : ExceptT Fault (Draw γ) (List Bool × Nat) := do
  let (bits, spent) := state
  let sub ← liftExcept (reduce (ascend chunk) work bits)
  let found ← ExceptT.adapt Breakdown.fault
    (search limits (p.subproblemSearch bits.length) sub.qubo sub.solution Effort.zero
      p.subproblemBudget)
  let bits ← liftExcept (writeBack sub.indices found.bits bits)
  return (bits, spent + found.effort.total)

def decompose (limits : Limits) (p : Parameters α) (work : Qubo α) (bits : List Bool) :
    ExceptT Fault (Draw γ) (List Bool × Nat) := do
  let costs ← liftExcept (flipCosts work bits)
  let parts ← liftExcept (pieces p.subproblemSize (ranking costs))
  parts.foldlM (searchChunk limits p work) (bits, 0)

def diversify (limits : Limits) (p : Parameters α) (work : Qubo α) (bits : List Bool) :
    ExceptT Fault (Draw γ) (List Bool × Nat) :=
  if p.subproblemSize < bits.length then decompose limits p work bits
  else return (← perturb limits.redraws p.perturbFraction bits, 0)

/-- The best bits are copied from the present ones after an improvement, and back otherwise. -/
def judge (s : Progress α) (spent : Nat) (found : Searched α) : Except Fault (Progress α) := do
  let s := { s with
    flips := s.flips + spent + found.outcome.flips
    passes := s.passes + 1
    targetReached := found.outcome.targetReached }
  if s.bestEnergy < found.outcome.energy then
    let best ← overwrite s.best found.bits
    return { s with current := found.bits, best, bestEnergy := found.outcome.energy, stale := 0 }
  else
    let current ← overwrite found.bits s.best
    return { s with current, stale := s.stale + 1 }

def pass (limits : Limits) (p : Parameters α) (work : Qubo α) (s : Progress α) :
    ExceptT Fault (Draw γ) (Progress α) := do
  let (bits, spent) ← diversify limits p work s.current
  let found ← searchWhole limits p work bits
  liftExcept (judge s spent found)

def isFinished (p : Parameters α) (s : Progress α) : Bool :=
  s.targetReached || p.repeats ≤ s.stale || p.timeout = 0

def started (found : Searched α) : Progress α :=
  { current := found.bits
    best := found.bits
    bestEnergy := found.outcome.energy
    flips := found.outcome.flips
    passes := 0
    stale := 0
    targetReached := found.outcome.targetReached }

def finished (p : Parameters α) (s : Progress α) : Solution α :=
  { bits := s.best
    energy := Coefficient.signed p.findMax s.bestEnergy
    flips := s.flips
    passes := s.passes
    targetReached := s.targetReached }

def course (limits : Limits) (p : Parameters α) (work : Qubo α) (n : Nat) :
    ExceptT Fault (Draw γ) (Progress α) := do
  let x ← monadLift (Draw.total (randomAssignment n) : Draw γ (Assignment n))
  let found ← searchWhole limits p work x.toList
  repeatUntil (isFinished p) (pass limits p work) limits.passes (started found)

end Solver

def solve (limits : Limits) (p : Parameters α) (q : Qubo α) :
    ExceptT SolveError (Draw γ) (Solution α) := do
  liftExcept (p.check.mapError SolveError.invalidParameter)
  let s ← ExceptT.adapt SolveError.fault (Solver.course limits p (p.maximized q) q.size)
  return Solver.finished p s

omit [Generator γ] [Coefficient α] in
theorem toggle_eq_ok (x : Assignment n) (v : Fin n) :
    toggle x.toList v.val = .ok (x.toggle v).toList := by
  unfold toggle
  rw [readAt_toList, ok_bind, writeAt_toList]
  rfl

theorem perturb_toList (redraws : Nat) (fraction : Binary64) (x : Assignment n) :
    (perturb redraws fraction x.toList : ExceptT Fault (Draw γ) (List Bool)) =
      (fun changed => changed.2.toList) <$>
        (monadLift (BinaryQuadratic.perturb redraws fraction x : Draw γ (List (Fin n) × Assignment n)) :
          ExceptT Fault (Draw γ) _) := by
  rcases x with ⟨⟨bits⟩, rfl⟩
  let x : Assignment bits.length := ⟨⟨bits⟩, rfl⟩
  change (perturb redraws fraction bits : ExceptT Fault (Draw γ) (List Bool)) =
    (fun changed => changed.2.toList) <$>
      (monadLift (BinaryQuadratic.perturb redraws fraction x : Draw γ _) : ExceptT Fault (Draw γ) _)
  unfold perturb BinaryQuadratic.perturb
  by_cases empty : bits.length = 0
  · rw [if_pos empty, if_pos empty]
    rfl
  · have bound : changeCount fraction bits.length ≤ bits.length := Nat.min_le_right _ _
    have toggled : ∀ picked : List (Fin bits.length), (picked.map Fin.val).foldlM toggle bits =
        .ok (picked.foldl Assignment.toggle x).toList := fun picked =>
      foldlM_eq_ok Vector.toList Fin.val picked (fun x v _ => toggle_eq_ok x v) x
    rw [if_neg empty, if_neg empty, dif_pos bound]
    simp only [toggled, Attempt.liftExcept_ok, bind_pure_comp, liftM_map]
    rw [← comp_map]
    rfl

end Indexed

/-! ### The solver -/

def Progress.listed (s : Progress α n) : Indexed.Progress α where
  current := s.current.toList
  best := s.best.toList
  bestEnergy := s.bestEnergy
  flips := s.flips
  passes := s.passes
  stale := s.stale
  targetReached := s.targetReached

def Solution.listed (solution : Solution α n) : Indexed.Solution α where
  bits := solution.bits.toList
  energy := solution.energy
  flips := solution.flips
  passes := solution.passes
  targetReached := solution.targetReached

namespace Solver

def Partial.listed (state : Partial n) : List Bool × Nat := (state.1.toList, state.2)

variable {p : Parameters α} {work : Qubo α} (fits : n ≤ work.size)
  (counted : work.size ≤ greatestWord)

include fits counted

theorem searchWhole_listed (limits : Limits) (p : Parameters α) (x : Assignment n) :
    (Indexed.Solver.searchWhole limits p work x.toList : ExceptT Fault (Draw γ) _) =
      Searched.listed <$> searchWhole limits p work x := by
  unfold Indexed.Solver.searchWhole searchWhole
  rw [Vector.length_toList, TabuSearch.run_listed counted fits, Attempt.adapt_map]

/-- The subproblem over a chunk is cut out alike, and small enough to be searched alike. -/
theorem exists_reduce_listed {chunk : List (Fin n)} (distinct : chunk.Nodup) (x : Assignment n) :
    ∃ sub, reduce (sortedIndices chunk) work x = .ok sub ∧
      Indexed.reduce (Indexed.ascend (chunk.map Fin.val)) work x.toList = .ok sub.listed ∧
      sub.indices.length ≤ sub.qubo.size ∧ sub.qubo.size ≤ greatestWord := by
  have inside : ∀ v ∈ sortedIndices chunk, v < n := lt_of_mem_sortedIndices
  have ascending := ascending_sortedIndices distinct
  have reduced := reduce_of_ascending fits x ascending inside
  have distinct' : ((sortedIndices chunk).pmap Fin.mk inside).Nodup :=
    (pairwise_pmap_mk ascending inside).imp fun before => before.ne
  have small := distinct'.length_le_card
  rw [Fintype.card_fin] at small
  refine ⟨_, reduced, ?_, le_rfl, small.trans (fits.trans counted)⟩
  have listed := Indexed.reduce_listed fits (sortedIndices chunk) x
  rw [reduced] at listed
  exact listed

theorem searchChunk_listed (limits : Limits) (p : Parameters α) (state : Partial n)
    {chunk : List (Fin n)} (distinct : chunk.Nodup) :
    (Indexed.Solver.searchChunk limits p work (Partial.listed state) (chunk.map Fin.val) :
        ExceptT Fault (Draw γ) _) =
      Partial.listed <$> searchChunk limits p work state chunk := by
  rcases state with ⟨x, spent⟩
  obtain ⟨sub, reduced, reduced', inside, small⟩ := exists_reduce_listed fits counted distinct x
  have searched : (Indexed.search limits (p.subproblemSearch x.toList.length) sub.listed.qubo
        sub.listed.solution Effort.zero p.subproblemBudget : Attempt γ _) =
      Searched.listed <$> (p.subproblemSearch n).run limits sub.qubo sub.solution Effort.zero
        p.subproblemBudget := by
    rw [Vector.length_toList]
    exact TabuSearch.run_listed small inside limits _ sub.solution Effort.zero p.subproblemBudget
  have adapted := congrArg (ExceptT.adapt Breakdown.fault) searched
  rw [Attempt.adapt_map] at adapted
  unfold sortedIndices at reduced
  unfold Indexed.Solver.searchChunk searchChunk
  simp only [Partial.listed, reduced, reduced', Attempt.liftExcept_ok]
  refine (pure_bind _ _).trans (Eq.trans ?_ (congrArg (Partial.listed <$> ·) (pure_bind _ _)).symm)
  refine (congrArg (· >>= _) adapted).trans ?_
  rw [bind_map_left, map_bind]
  refine bind_congr fun found => ?_
  have written := Indexed.writeBack_eq_ok sub.indices found.bits x
  have writes := writeBack_assignment sub.indices found.bits x
  change (liftExcept (Indexed.writeBack (sub.indices.map Fin.val) found.bits.toList x.toList) >>=
    fun bits => pure (bits, spent + found.effort.total) : ExceptT Fault (Draw γ) _) = _
  rw [written, writes]
  rfl

theorem decompose_listed (limits : Limits) (p : Parameters α) (positive : 0 < p.subproblemSize)
    (x : Assignment n) :
    (Indexed.Solver.decompose limits p work x.toList : ExceptT Fault (Draw γ) _) =
      Partial.listed <$> decompose limits p work x := by
  let order := ranking (work.flipCostsWithin fits x)
  have pieces_eq : Indexed.pieces p.subproblemSize
        (Indexed.ranking (work.flipCostsWithin fits x).toList) =
      .ok ((chunks p.subproblemSize order).map (List.map Fin.val)) := by
    unfold Indexed.pieces
    rw [Indexed.ranking_toList, if_neg positive.ne', chunks_map]
  have searched := Indexed.foldlM_map_of_steps Partial.listed (List.map Fin.val)
    (chunks p.subproblemSize order) (fun state chunk member =>
      searchChunk_listed (γ := γ) fits counted limits p state
        (nodup_of_mem_chunks (nodup_ranking _) member)) (x, 0)
  unfold Indexed.Solver.decompose decompose
  rw [Indexed.flipCosts_eq_ok fits counted, Qubo.flipCosts_of_fits fits]
  simp only [Attempt.liftExcept_ok]
  refine (pure_bind _ _).trans (Eq.trans ?_ (congrArg (Partial.listed <$> ·) (pure_bind _ _)).symm)
  rw [pieces_eq, Attempt.liftExcept_ok, pure_bind]
  exact searched

theorem diversify_listed (limits : Limits) (p : Parameters α) (positive : 0 < p.subproblemSize)
    (x : Assignment n) :
    (Indexed.Solver.diversify limits p work x.toList : ExceptT Fault (Draw γ) _) =
      Partial.listed <$> diversify limits p work x := by
  unfold Indexed.Solver.diversify diversify
  rw [Vector.length_toList]
  by_cases large : p.subproblemSize < n
  · rw [if_pos large, if_pos large]
    exact decompose_listed fits counted limits p positive x
  · rw [if_neg large, if_neg large, Indexed.perturb_toList, bind_map_left, map_bind]
    exact bind_congr fun changed => (map_pure Partial.listed (changed.2, 0)).symm

omit [Generator γ] fits counted in
theorem judge_listed (s : Progress α n) (spent : Nat) (found : Searched α n) :
    Indexed.Solver.judge s.listed spent found.listed = .ok (judge s spent found).listed := by
  have better_iff : s.listed.bestEnergy < found.listed.outcome.energy ↔
      s.bestEnergy < found.outcome.energy := Iff.rfl
  have kept : Indexed.overwrite s.listed.best found.listed.bits = .ok found.bits.toList :=
    Indexed.overwrite_toList s.best found.bits
  have undone : Indexed.overwrite found.listed.bits s.listed.best = .ok s.best.toList :=
    Indexed.overwrite_toList found.bits s.best
  unfold Indexed.Solver.judge judge
  by_cases better : s.bestEnergy < found.outcome.energy
  · simp only [if_pos better, if_pos (better_iff.mpr better), kept, Indexed.ok_bind]
    rfl
  · simp only [if_neg better, if_neg (mt better_iff.mp better), undone, Indexed.ok_bind]
    rfl

theorem pass_listed (limits : Limits) (p : Parameters α) (positive : 0 < p.subproblemSize)
    (s : Progress α n) :
    (Indexed.Solver.pass limits p work s.listed : ExceptT Fault (Draw γ) _) =
      Progress.listed <$> pass limits p work s := by
  have current_eq : s.listed.current = s.current.toList := rfl
  unfold Indexed.Solver.pass pass
  rw [current_eq, diversify_listed fits counted limits p positive, bind_map_left, map_bind]
  refine bind_congr fun changed => ?_
  simp only [Partial.listed, searchWhole_listed fits counted, bind_map_left, map_bind, map_pure,
    judge_listed]
  rfl

theorem course_listed (limits : Limits) (p : Parameters α) (positive : 0 < p.subproblemSize) :
    (Indexed.Solver.course limits p work n : ExceptT Fault (Draw γ) _) =
      Progress.listed <$> course limits p work n := by
  have passes : ∀ s : Progress α n,
      (repeatUntil (Indexed.Solver.isFinished p) (Indexed.Solver.pass limits p work) limits.passes
        s.listed : ExceptT Fault (Draw γ) _) =
        Progress.listed <$> passesFrom limits p work limits.passes s := fun s =>
    repeatUntil.map_state _ (fun _ => rfl) (pass_listed fits counted limits p positive)
      limits.passes s
  have starts : ∀ found : Searched α n,
      Indexed.Solver.started found.listed = (started found).listed := fun _ => rfl
  unfold Indexed.Solver.course course
  simp only [searchWhole_listed fits counted, bind_map_left, map_bind, starts, passes]

end Solver

theorem solve_listed (limits : Limits) {p : Parameters α} (positive : 0 < p.subproblemSize)
    {q : Qubo α} (counted : q.size ≤ greatestWord) :
    (Indexed.solve limits p q : ExceptT SolveError (Draw γ) _) =
      Solution.listed <$> solve limits p q := by
  have same_size : (p.maximized q).size = q.size := Parameters.size_maximized p q
  have course_eq := Solver.course_listed (γ := γ) same_size.ge (same_size.trans_le counted) limits p
    positive
  have adapted := congrArg (ExceptT.adapt SolveError.fault) course_eq
  rw [Attempt.adapt_map] at adapted
  unfold Indexed.solve solve
  rw [map_bind]
  refine bind_congr fun _ => ?_
  refine (congrArg (· >>= _) adapted).trans ?_
  simp only [bind_map_left, map_bind, map_pure]
  rfl

/-! ### The pieces of a ranking -/

namespace Indexed

/-- Pieces in ascending order, one to `width` numbers in each, that share no number and together list
every number below `n` once. -/
structure Divides (width n : Nat) (parts : List (List Nat)) : Prop where
  ascending : ∀ part ∈ parts, part.Pairwise (· < ·)
  length_bounds : ∀ part ∈ parts, 0 < part.length ∧ part.length ≤ width
  disjoint : parts.Pairwise List.Disjoint
  perm : parts.flatten.Perm (List.range n)

theorem ranking_perm (values : List α) : (ranking values).Perm (List.range values.length) := by
  have numbered : values.zipIdx.map (·.2) = List.range values.length := by
    rw [List.range_eq_range']
    exact List.zipIdx_map_snd 0 values
  rw [← numbered]
  exact (perm_insertionSort _ _).map _

theorem ascend_perm (items : List Nat) : (ascend items).Perm items := perm_insertionSort _ _

/-- Whatever the values are, the pieces of their ranking divide the positions. -/
theorem exists_pieces_ranking {width : Nat} (positive : 0 < width) (values : List α) :
    ∃ parts, pieces width (ranking values) = .ok parts ∧
      Divides width values.length (parts.map ascend) := by
  obtain ⟨joined, bounds⟩ := chunks_spec positive (ranking values)
  have sorted_perm : ((chunks width (ranking values)).map ascend).flatten.Perm
      (List.range values.length) := by
    have same := List.Perm.flatMap_left (chunks width (ranking values)) fun part _ => ascend_perm part
    rw [List.flatMap_def, List.flatMap_def, List.map_id', joined] at same
    exact same.trans (ranking_perm values)
  have distinct := sorted_perm.nodup_iff.mpr List.nodup_range
  rw [List.nodup_flatten] at distinct
  refine ⟨chunks width (ranking values), if_neg positive.ne', ?_, ?_, distinct.2, sorted_perm⟩
  · intro part member
    obtain ⟨chunk, _, rfl⟩ := List.mem_map.mp member
    exact ascending_insertionSort ((ascend_perm chunk).nodup_iff.mp (distinct.1 _ member))
  · intro part member
    obtain ⟨chunk, cut, rfl⟩ := List.mem_map.mp member
    rw [(ascend_perm chunk).length_eq]
    exact bounds chunk cut

end Indexed

omit [Coefficient α] in
theorem Parameters.subproblemSize_pos {p : Parameters α} (valid : p.check = .ok ()) :
    0 < p.subproblemSize := by
  rcases Nat.eq_zero_or_pos p.subproblemSize with zero | positive
  · unfold check at valid
    rw [if_pos zero] at valid
    cases valid
  · exact positive

/-- With every index looked at and every requirement tested, a solve with valid parameters does what it
does over variables: no index is out of range, no requirement fails, and the only failure left is a
count past the greatest word. The pieces that a pass searches divide the variables, whatever the
costs that they are ranked by. -/
theorem solve_within_bounds {p : Parameters α} (valid : p.check = .ok ()) {q : Qubo α}
    (counted : q.size ≤ greatestWord) (limits : Limits) :
    (∀ g : γ, Indexed.solve limits p q g = (Solution.listed <$> solve limits p q) g) ∧
    (∀ (g : γ) error g', Indexed.solve limits p q g = some (.error error, g') →
      error = .fault .countOverflow) ∧
    ∀ costs : List α, ∃ parts,
      Indexed.pieces p.subproblemSize (Indexed.ranking costs) = .ok parts ∧
        Indexed.Divides p.subproblemSize costs.length (parts.map Indexed.ascend) := by
  have positive := Parameters.subproblemSize_pos valid
  have same : (Indexed.solve limits p q : ExceptT SolveError (Draw γ) _) =
      Solution.listed <$> solve limits p q := solve_listed limits positive counted
  refine ⟨fun g => congrFun same g, ?_, Indexed.exists_pieces_ranking positive⟩
  rw [same, ← bind_pure_comp]
  exact (solve_failsOnly limits valid q).bind fun _ => .of_pure _

theorem solve_within_bounds_beside_not_numbers :
    let tenths : Nat → Binary64 := fun count => .ofFraction false count 10
    let q : Qubo Binary64 := ⟨4, #v[.quietNaN false, tenths 3, 0, 0, 0, .infinity true, tenths 3,
      -tenths 7, 0, 0, .zero true, tenths 5, 0, 0, 0, 0]⟩
    let p : Parameters Binary64 :=
      { findMax := true, subproblemSize := 3, repeats := 2, budget := 12, subproblemBudget := 6 }
    let limits := Limits.uniform 12
    let g : Scripted :=
      ⟨#[5, 0x9e3779b97f4a7c15, 0xdeadbeefcafebabe, 0x123456789abcdef0], by decide, 0⟩
    let costs : List Binary64 := [.zero true, .quietNaN false, 0, .infinity false, .quietNaN true,
      .zero true, .infinity true]
    (∃ found g', Indexed.solve limits p q g = some (.ok found, g') ∧
      (found.bits, found.energy, found.passes) = ([true, false, true, true], .quietNaN false, 2) ∧
      (Solution.listed <$> solve limits p q) g = some (.ok found, g')) ∧
    (∀ (g : Scripted) error g', Indexed.solve limits p q g = some (.error error, g') →
      error = .fault .countOverflow) ∧
    ∃ parts, Indexed.pieces 3 (Indexed.ranking costs) = .ok parts ∧
      parts = [[1, 3, 2], [0, 5, 6], [4]] ∧ Indexed.Divides 3 7 (parts.map Indexed.ascend) := by
  intro tenths q p limits g costs
  have valid : p.check = .ok () := by decide +kernel
  have counted : q.size ≤ greatestWord := by decide
  have reported : ((Indexed.solve limits p q g).map fun result => result.1.toOption.map fun found =>
      (found.bits, found.energy, found.passes)) =
        some (some ([true, false, true, true], .quietNaN false, 2)) := by
    decide +kernel
  have cut : Indexed.pieces 3 (Indexed.ranking costs) = .ok [[1, 3, 2], [0, 5, 6], [4]] := by
    decide +kernel
  obtain ⟨found, g', ends, values⟩ := Attempt.exists_ok_of_report reported
  obtain ⟨same, fails, divides⟩ := solve_within_bounds (γ := Scripted) valid counted limits
  obtain ⟨parts, cut', divided⟩ := divides costs
  exact ⟨⟨found, g', ends, values, (same g).symm.trans ends⟩, fails, parts, cut',
    Except.ok.inj (cut'.symm.trans cut), divided⟩

end BinaryQuadratic
