import BinaryQuadratic.Proofs.Decomposition
import BinaryQuadratic.Proofs.Sweeps

set_option autoImplicit false

/-! How a solve can fail. A search whose assignment fits the matrix breaks down by counting past the
greatest word and in no other way, and a decomposition searches nothing that does not fit. -/

namespace BinaryQuadratic

namespace Attempt

variable {ε ε' γ β δ σ ι : Type} {allowed : ε → Prop}

/-- Whatever generator an attempt is given, it fails in no way that is not allowed. -/
def FailsOnly (allowed : ε → Prop) (action : ExceptT ε (Draw γ) β) : Prop :=
  ∀ g failure g', action g = some (.error failure, g') → allowed failure

namespace FailsOnly

theorem of_pure (value : β) : FailsOnly allowed (pure value : ExceptT ε (Draw γ) β) := by
  intro g failure g' fails
  cases fails

theorem of_lift (action : Draw γ β) :
    FailsOnly allowed (monadLift action : ExceptT ε (Draw γ) β) := by
  intro g failure g' fails
  cases drawn : action g with
  | none => cases (lift_of_none drawn).symm.trans fails
  | some result => cases (lift_of_some drawn).symm.trans fails

theorem of_check {check : Except ε β} (fails : ∀ failure, check = .error failure → allowed failure) :
    FailsOnly allowed (liftExcept check : ExceptT ε (Draw γ) β) := by
  intro g failure g' broken
  cases check with
  | ok value => cases broken
  | error other =>
      cases broken
      exact fails failure rfl

theorem bind {action : ExceptT ε (Draw γ) β} {next : β → ExceptT ε (Draw γ) δ}
    (first : FailsOnly allowed action) (rest : ∀ value, FailsOnly allowed (next value)) :
    FailsOnly allowed (action >>= next) := by
  intro g failure g' fails
  cases ends : action g with
  | none => cases (bind_of_none ends).symm.trans fails
  | some result =>
      rcases result with ⟨outcome, middle⟩
      cases outcome with
      | error other =>
          cases (bind_of_error ends).symm.trans fails
          exact first g failure g' ends
      | ok value =>
          rw [bind_of_ok ends] at fails
          exact rest value middle failure g' fails

theorem adapt {action : ExceptT ε (Draw γ) β} {change : ε → ε'} {allowed' : ε' → Prop}
    (first : FailsOnly allowed action)
    (changed : ∀ failure, allowed failure → allowed' (change failure)) :
    FailsOnly allowed' (ExceptT.adapt change action) := by
  intro g failure g' fails
  change Option.bind (action g) _ = _ at fails
  cases ends : action g with
  | none =>
      rw [ends] at fails
      cases fails
  | some result =>
      rcases result with ⟨outcome, middle⟩
      rw [ends] at fails
      cases outcome with
      | ok value => cases fails
      | error other =>
          cases fails
          exact changed other (first g other g' ends)

theorem repeatUntil {finished : σ → Bool} {step : σ → ExceptT ε (Draw γ) σ}
    (steps : ∀ s, FailsOnly allowed (step s)) (limit : Nat) (s : σ) :
    FailsOnly allowed (BinaryQuadratic.repeatUntil finished step limit s) := by
  induction limit generalizing s with
  | zero =>
      unfold BinaryQuadratic.repeatUntil
      cases finished s with
      | true => exact of_pure s
      | false => exact of_lift _
  | succ limit ih =>
      unfold BinaryQuadratic.repeatUntil
      cases finished s with
      | true => exact of_pure s
      | false => exact (steps s).bind ih

theorem foldlM {step : σ → ι → ExceptT ε (Draw γ) σ} (items : List ι)
    (steps : ∀ s, ∀ i ∈ items, FailsOnly allowed (step s i)) (s : σ) :
    FailsOnly allowed (items.foldlM step s) := by
  induction items generalizing s with
  | nil => exact of_pure s
  | cons i rest ih =>
      rw [List.foldlM_cons]
      exact (steps s i List.mem_cons_self).bind
        (ih fun s j member => steps s j (List.mem_cons_of_mem i member))

end FailsOnly

end Attempt

/-! ### Searches -/

variable {α γ : Type} [Coefficient α] [Generator γ] {n : Nat} {q : Qubo α}

def Breakdown.Overflows (breakdown : Breakdown) : Prop := breakdown.fault = .countOverflow

open Attempt (FailsOnly)

omit [Generator γ] in
theorem Effort.checked_failsOnly (effort : Effort) :
    FailsOnly Breakdown.Overflows (liftExcept effort.checked : Attempt γ Unit) := by
  refine .of_check fun breakdown broken => ?_
  rcases Walk.checked_cases effort with counted | ⟨_, past⟩
  · cases counted.symm.trans broken
  · cases past.symm.trans broken
    rfl

omit [Generator γ] in
theorem Budget.checked_failsOnly (b : Budget) (effort : Effort) :
    FailsOnly Breakdown.Overflows (liftExcept (b.checked effort) : Attempt γ Unit) := by
  refine .of_check fun breakdown broken => ?_
  unfold Budget.checked at broken
  by_cases bounded : b.ceiling ≤ greatestWord
  · rw [if_pos bounded] at broken
    cases broken
  · rw [if_neg bounded] at broken
    cases broken
    rfl

theorem Walk.climbFrom_failsOnly (redraws sweeps : Nat) (order : Vector (Fin n) n) (walk : Walk q n) :
    FailsOnly Breakdown.Overflows (climbFrom redraws sweeps order walk : Attempt γ _) := by
  induction sweeps generalizing order walk with
  | zero => exact .of_lift _
  | succ sweeps ih =>
      unfold climbFrom
      refine .bind (.of_lift _) fun swept => .bind (Effort.checked_failsOnly _) fun _ => ?_
      cases (swept.toList.foldl visit (walk, [])).2 with
      | nil => exact .of_pure _
      | cons v rest => exact ih swept _

namespace SearchState

variable (limits : Limits) (target : Option (Target α)) (s : SearchState q n)

omit [Coefficient α] in
theorem settle_failsOnly (v : Fin n) : FailsOnly Breakdown.Overflows (s.settle v : Attempt γ _) :=
  .bind (.of_lift _) fun _ => .of_pure _

theorem improve_failsOnly (v : Fin n) (effort : Effort) :
    FailsOnly Breakdown.Overflows (s.improve limits target v effort : Attempt γ _) := by
  unfold improve
  refine .bind (Walk.climbFrom_failsOnly _ _ _ _) fun walk => ?_
  cases Target.reached target walk.current.energy with
  | true => exact .of_pure _
  | false => exact .bind (Budget.checked_failsOnly _ _) fun _ => settle_failsOnly _ v

theorem iterate_failsOnly : FailsOnly Breakdown.Overflows (s.iterate limits target : Attempt γ _) := by
  unfold iterate
  simp only
  generalize s.countIterations 1 = begun
  cases scan begun.tabu begun.walk.current begun.bestEnergy begun.order none begun.walk.effort with
  | improving v effort =>
      exact .bind (Effort.checked_failsOnly effort) fun _ =>
        improve_failsOnly limits target begun v effort
  | exhausted nearMiss effort =>
      cases nearMiss with
      | none => exact .of_pure _
      | some held =>
          exact .bind (Effort.checked_failsOnly effort) fun _ => settle_failsOnly _ held.1

end SearchState

theorem TabuSearch.run_failsOnly (fits : n ≤ q.size) (limits : Limits) (p : TabuSearch α)
    (x : Assignment n) (effort : Effort) (ceiling : Nat) :
    FailsOnly Breakdown.Overflows (p.run limits q x effort ceiling : Attempt γ _) := by
  unfold run
  rw [Qubo.checkLength_of_fits fits]
  change FailsOnly Breakdown.Overflows (p.runWithin limits q fits x effort ceiling)
  unfold runWithin
  by_cases empty : n = 0
  · rw [if_pos empty]
    exact .of_pure _
  · rw [if_neg empty]
    refine .bind (Walk.climbFrom_failsOnly _ _ _ _) fun walk => .bind ?_ fun _ => .of_pure _
    exact .repeatUntil (SearchState.iterate_failsOnly limits p.target) _ _

namespace Solver

variable {work : Qubo α} (fits : n ≤ work.size) (limits : Limits) (p : Parameters α)

include fits

theorem searchWhole_failsOnly (x : Assignment n) :
    FailsOnly (· = .countOverflow) (searchWhole limits p work x : ExceptT Fault (Draw γ) _) :=
  (TabuSearch.run_failsOnly fits limits _ x _ _).adapt fun _ => id

theorem searchChunk_failsOnly (state : Partial n) {chunk : List (Fin n)} (distinct : chunk.Nodup) :
    FailsOnly (· = .countOverflow)
      (searchChunk limits p work state chunk : ExceptT Fault (Draw γ) _) := by
  rcases state with ⟨x, spent⟩
  obtain ⟨indices, _, reduced⟩ := exists_reduce fits distinct x
  unfold sortedIndices at reduced
  unfold searchChunk
  simp only [reduced, Attempt.liftExcept_ok]
  rw [pure_bind]
  have inside : indices.length ≤ (Subproblem.matrix work fits x indices).size := le_rfl
  refine .bind ((TabuSearch.run_failsOnly inside limits _ _ _ _).adapt fun _ => id) fun found => ?_
  refine .bind (.of_check fun fault broken => ?_) fun _ => .of_pure _
  cases (writeBack_assignment indices found.bits x).symm.trans broken

theorem diversify_failsOnly (x : Assignment n) :
    FailsOnly (· = .countOverflow) (diversify limits p work x : ExceptT Fault (Draw γ) _) := by
  unfold diversify
  by_cases large : p.subproblemSize < n
  · rw [if_pos large]
    unfold decompose
    rw [Qubo.flipCosts_of_fits fits, Attempt.liftExcept_ok, pure_bind]
    exact .foldlM _ (fun state chunk member =>
      searchChunk_failsOnly fits limits p state (nodup_of_mem_chunks (nodup_ranking _) member)) _
  · rw [if_neg large]
    exact .bind (.of_lift _) fun _ => .of_pure _

theorem pass_failsOnly (s : Progress α n) :
    FailsOnly (· = .countOverflow) (pass limits p work s : ExceptT Fault (Draw γ) _) :=
  .bind (diversify_failsOnly fits limits p s.current) fun changed =>
    .bind (searchWhole_failsOnly fits limits p changed.1) fun _ => .of_pure _

theorem course_failsOnly :
    FailsOnly (· = .countOverflow) (course limits p work n : ExceptT Fault (Draw γ) _) :=
  .bind (.of_lift _) fun x => .bind (searchWhole_failsOnly fits limits p x) fun _ =>
    .repeatUntil (pass_failsOnly fits limits p) _ _

end Solver

/-- A solve with valid parameters fails only if a search counts past the greatest word. -/
theorem solve_failsOnly (limits : Limits) {p : Parameters α} (valid : p.check = .ok ()) (q : Qubo α) :
    FailsOnly (· = .fault .countOverflow)
      (solve limits p q : ExceptT SolveError (Draw γ) (Solution α q.size)) := by
  have fits : q.size ≤ (p.maximized q).size := (Parameters.size_maximized p q).ge
  unfold solve
  rw [valid]
  refine .bind (.of_check fun error broken => by cases broken) fun _ => .bind ?_ fun _ => .of_pure _
  exact (Solver.course_failsOnly fits limits p).adapt fun fault => congrArg SolveError.fault

end BinaryQuadratic
