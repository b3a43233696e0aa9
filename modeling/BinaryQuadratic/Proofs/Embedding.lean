import BinaryQuadratic.Proofs.Negation

set_option autoImplicit false

/-! Problems that the solver cannot tell apart. The search only adds, negates and compares, and it only
reads the couplings of the variables that it has. Two matrices whose couplings correspond under a
change of numbers that keeps all of this lead to corresponding results, draw for draw. -/

namespace BinaryQuadratic

/-- A change of numbers that keeps zero, sums, signs and every comparison. -/
structure Coefficient.Embedding (α β : Type) [Coefficient α] [Coefficient β] where
  toFun : α → β
  map_zero : toFun 0 = 0
  map_add : ∀ a b, toFun (a + b) = toFun a + toFun b
  map_neg : ∀ a, toFun (-a) = -toFun a
  lt_iff : ∀ {a b}, toFun a < toFun b ↔ a < b
  le_iff : ∀ {a b}, toFun a ≤ toFun b ↔ a ≤ b
  ranksBefore_eq : ∀ a b, Coefficient.ranksBefore (toFun a) (toFun b) = Coefficient.ranksBefore a b

open Coefficient (Embedding)

variable {α β γ : Type} [Coefficient α] [Coefficient β] [Generator γ] {n : Nat}

namespace Coefficient.Embedding

instance : CoeFun (Embedding α β) fun _ => α → β := ⟨toFun⟩

def refl (α : Type) [Coefficient α] : Embedding α α :=
  ⟨id, rfl, fun _ _ => rfl, fun _ => rfl, Iff.rfl, Iff.rfl, fun _ _ => rfl⟩

variable (e : Embedding α β)

theorem map_signed (positive : Bool) (a : α) :
    e (Coefficient.signed positive a) = Coefficient.signed positive (e a) := by
  cases positive with
  | true => rfl
  | false => exact e.map_neg a

theorem pos_iff {a : α} : 0 < e a ↔ 0 < a := by
  rw [← e.map_zero]
  exact e.lt_iff

/-- Sums over the same items whose terms correspond are corresponding sums. -/
theorem map_foldl {ι : Type} {term : ι → α} {term' : ι → β} (terms : ∀ i, term' i = e (term i))
    (items : List ι) {start : α} {start' : β} (starts : start' = e start) :
    items.foldl (fun total i => total + term' i) start' =
      e (items.foldl (fun total i => total + term i) start) := by
  refine List.foldl_rel (r := fun total' total => total' = e total) starts ?_
  intro i _ total' total held
  rw [held, terms, e.map_add]

theorem ranking_map (values : Vector α n) : ranking (values.map e) = ranking values := by
  unfold ranking
  congr 1
  funext i j
  have read : ∀ v, (values.map e).get v = e (values.get v) := fun v => Vector.getElem_map e v.isLt
  rw [read, read, e.ranksBefore_eq]

end Coefficient.Embedding

/-! ### Corresponding matrices -/

/-- Both matrices cover `n` variables, and on and above the diagonal of the leading block of `n`
variables the cells of the one are those of the other. Nothing is said of any other cell. -/
structure Qubo.Corresponds (e : Embedding α β) (q : Qubo α) (q' : Qubo β) (n : Nat) : Prop where
  fits : n ≤ q.size
  fits' : n ≤ q'.size
  cell_eq : ∀ i j : Fin n, i ≤ j →
    q'.cell (i.castLE fits') (j.castLE fits') = e (q.cell (i.castLE fits) (j.castLE fits))

def Qubo.map (f : α → β) (q : Qubo α) : Qubo β := ⟨q.size, q.cells.map f⟩

namespace Qubo.Corresponds

variable {e : Embedding α β} {q : Qubo α} {q' : Qubo β}

theorem map (e : Embedding α β) (fits : n ≤ q.size) : q.Corresponds e (q.map e) n :=
  ⟨fits, fits, fun i j _ =>
    Vector.getElem_map e (cell_lt (i.castLE fits).isLt (j.castLE fits).isLt)⟩

variable (c : q.Corresponds e q' n)

include c

theorem coupling_eq (i j : Fin n) : q'.coupling c.fits' i j = e (q.coupling c.fits i j) := by
  unfold coupling
  by_cases ordered : i ≤ j
  · rw [if_pos ordered, if_pos ordered]
    exact c.cell_eq i j ordered
  · rw [if_neg ordered, if_neg ordered]
    exact c.cell_eq j i (Nat.le_of_lt (Nat.lt_of_not_le ordered))

theorem negated : q.negated.Corresponds e q'.negated n := by
  refine ⟨c.fits, c.fits', fun i j ordered => ?_⟩
  calc q'.negated.cell (i.castLE c.fits') (j.castLE c.fits')
      = -q'.cell (i.castLE c.fits') (j.castLE c.fits') := q'.cell_negated _ _
    _ = -e (q.cell (i.castLE c.fits) (j.castLE c.fits)) := congrArg _ (c.cell_eq i j ordered)
    _ = e (-q.cell (i.castLE c.fits) (j.castLE c.fits)) := (e.map_neg _).symm
    _ = e (q.negated.cell (i.castLE c.fits) (j.castLE c.fits)) :=
        congrArg e (q.cell_negated _ _).symm

theorem energyWithin_eq (x : Assignment n) :
    q'.energyWithin c.fits' x = e (q.energyWithin c.fits x) := by
  unfold energyWithin
  refine List.foldl_rel (r := fun total' total => total' = e total) e.map_zero.symm ?_
  intro i _ total' total held
  exact e.map_foldl (c.coupling_eq i) _ held

theorem flipCost_eq (x : Assignment n) (ones : List (Fin n)) (i : Fin n) :
    q'.flipCost c.fits' x ones i = e (q.flipCost c.fits x ones i) := by
  unfold flipCost
  rw [e.map_signed, e.map_foldl (c.coupling_eq i) _ (c.coupling_eq i i)]

theorem flipCostsWithin_eq (x : Assignment n) :
    q'.flipCostsWithin c.fits' x = (q.flipCostsWithin c.fits x).map e := by
  unfold flipCostsWithin
  rw [Vector.map_ofFn]
  exact congrArg Vector.ofFn (funext fun i => c.flipCost_eq x x.support i)

end Qubo.Corresponds

def Subproblem.map (f : α → β) (sub : Subproblem α n) : Subproblem β n :=
  ⟨sub.indices, sub.qubo.map f, sub.solution⟩

omit [Coefficient α] [Coefficient β] in
theorem Qubo.map_ofFn (f : α → β) (size : Nat) (entry : Fin size → Fin size → α) :
    (ofFn size entry).map f = ofFn size fun i j => f (entry i j) := by
  unfold map ofFn
  rw [Vector.map_ofFn]
  rfl

theorem reduce_of_corresponds {e : Embedding α β} {q : Qubo α} {q' : Qubo β}
    (c : q.Corresponds e q' n) (indices : List Nat) (x : Assignment n) :
    reduce indices q' x = (reduce indices q x).map (Subproblem.map e) := by
  have clamps : ∀ held v, Subproblem.clamp q' c.fits' held v =
      e (Subproblem.clamp q c.fits held v) := fun held v =>
    e.map_foldl (c.coupling_eq v) held e.map_zero.symm
  have matrices : ∀ chosen : List (Fin n), Subproblem.matrix q' c.fits' x chosen =
      (Subproblem.matrix q c.fits x chosen).map e := by
    intro chosen
    unfold Subproblem.matrix
    rw [Qubo.map_ofFn]
    apply congrArg (Qubo.ofFn _)
    funext a b
    by_cases before : a < b
    · simp only [if_pos before, c.coupling_eq]
    · by_cases same : a = b
      · simp only [if_neg before, if_pos same, c.coupling_eq, clamps, e.map_add]
      · simp only [if_neg before, if_neg same, e.map_zero]
  unfold reduce
  rw [Qubo.checkLength_of_fits c.fits, Qubo.checkLength_of_fits c.fits']
  by_cases ascending : indices.Pairwise (· < ·)
  · by_cases inside : ∀ v ∈ indices, v < n
    · simp only [bind, Except.bind, if_pos ascending, dif_pos inside]
      unfold Subproblem.ofIndices
      rw [matrices]
      rfl
    · simp only [bind, Except.bind, if_pos ascending, dif_neg inside]
      rfl
  · simp only [bind, Except.bind, if_neg ascending]
    rfl

theorem length_le_of_reduce {q : Qubo α} {indices : List Nat} {x : Assignment n}
    {sub : Subproblem α n} (reduced : reduce indices q x = .ok sub) :
    sub.indices.length ≤ sub.qubo.size := by
  unfold reduce at reduced
  by_cases fits : n ≤ q.size
  · rw [Qubo.checkLength_of_fits fits] at reduced
    by_cases ascending : indices.Pairwise (· < ·)
    · by_cases inside : ∀ v ∈ indices, v < n
      · simp only [bind, Except.bind, if_pos ascending, dif_pos inside] at reduced
        cases reduced
        exact Nat.le_refl _
      · simp only [bind, Except.bind, if_pos ascending, dif_neg inside] at reduced
        cases reduced
    · simp only [bind, Except.bind, if_neg ascending] at reduced
      cases reduced
  · have fails : q.checkLength n = .error (.assignmentTooLong n q.size) := dif_neg fits
    rw [fails] at reduced
    cases reduced

end BinaryQuadratic
