import BinaryQuadratic.Coefficient
import BinaryQuadratic.Fault
import BinaryQuadratic.Word

set_option autoImplicit false

/-! The coefficients of a quadratic objective over binary variables. They are kept row by row in a
square; only the cells on and above the diagonal take part in the objective. -/

namespace BinaryQuadratic

structure Qubo (α : Type) where
  size : Nat
  cells : Vector α (size * size)

theorem cell_lt {n i j : Nat} (row : i < n) (column : j < n) : i * n + j < n * n :=
  calc i * n + j < i * n + n := Nat.add_lt_add_left column _
    _ = (i + 1) * n := (Nat.succ_mul i n).symm
    _ ≤ n * n := Nat.mul_le_mul_right n row

theorem cell_div {n j : Nat} (column : j < n) (i : Nat) : (i * n + j) / n = i := by
  rw [Nat.mul_comm, Nat.mul_add_div (Nat.zero_lt_of_lt column), Nat.div_eq_of_lt column, Nat.add_zero]

theorem cell_mod {n j : Nat} (column : j < n) (i : Nat) : (i * n + j) % n = j := by
  rw [Nat.mul_comm, Nat.mul_add_mod, Nat.mod_eq_of_lt column]

namespace Qubo

variable {α : Type}

def ofFn (size : Nat) (f : Fin size → Fin size → α) : Qubo α :=
  ⟨size, Vector.ofFn fun cell =>
    have positive : 0 < size := Nat.pos_of_ne_zero fun empty => by
      subst empty; exact absurd cell.isLt (by simp)
    f ⟨cell / size, Nat.div_lt_of_lt_mul cell.isLt⟩ ⟨cell % size, Nat.mod_lt _ positive⟩⟩

def cell (q : Qubo α) (i j : Fin q.size) : α :=
  q.cells.get ⟨i.val * q.size + j.val, cell_lt i.isLt j.isLt⟩

@[simp] theorem cell_ofFn {size : Nat} (f : Fin size → Fin size → α) (i j : Fin size) :
    (ofFn size f).cell i j = f i j := by
  unfold cell ofFn
  refine (Vector.getElem_ofFn (cell_lt i.isLt j.isLt)).trans ?_
  exact congr (congrArg f (Fin.ext (cell_div j.isLt i))) (Fin.ext (cell_mod j.isLt i))

/-- The coefficient of the unordered pair of `i` and `j` in the leading block of `n` variables. -/
def coupling (q : Qubo α) {n : Nat} (fits : n ≤ q.size) (i j : Fin n) : α :=
  if i ≤ j then q.cell (i.castLE fits) (j.castLE fits)
  else q.cell (j.castLE fits) (i.castLE fits)

theorem coupling_ofFn {size : Nat} (f : Fin size → Fin size → α) (fits : size ≤ (ofFn size f).size)
    (i j : Fin size) (ordered : i ≤ j) : (ofFn size f).coupling fits i j = f i j := by
  unfold coupling
  rw [if_pos ordered]
  exact cell_ofFn f i j

theorem coupling_comm (q : Qubo α) {n : Nat} (fits : n ≤ q.size) (i j : Fin n) :
    q.coupling fits i j = q.coupling fits j i := by
  unfold coupling
  rcases Nat.lt_trichotomy i.val j.val with before | same | after
  · have forward : i ≤ j := Nat.le_of_lt before
    have backward : ¬ j ≤ i := Nat.not_le_of_lt before
    rw [if_pos forward, if_neg backward]
  · rw [Fin.ext same]
  · have forward : ¬ i ≤ j := Nat.not_le_of_lt after
    have backward : j ≤ i := Nat.le_of_lt after
    rw [if_neg forward, if_pos backward]

def put (q : Qubo α) (i j : Fin q.size) (value : α) : Qubo α :=
  { q with cells := q.cells.set (i.val * q.size + j.val) value (cell_lt i.isLt j.isLt) }

/-! ### Access by any indices -/

/-- A raw read of the stored cells: a column past the end of its row continues in the next row. -/
def get (q : Qubo α) (i j : Nat) : Except Fault α :=
  if inside : i * q.size + j < q.size * q.size then .ok q.cells[i * q.size + j]
  else .error .outOfBounds

def getCoupling (q : Qubo α) (i j : Nat) : Except Fault α :=
  if i ≤ j then q.get i j else q.get j i

/-- The row must lie inside the stored cells, and its end must be counted by a word even in a matrix
without variables. -/
def row (q : Qubo α) (i : Nat) : Except Fault (List α) :=
  if i < greatestWord ∧ (i + 1) * q.size ≤ q.size * q.size then
    .ok ((q.cells.toList.drop (i * q.size)).take q.size)
  else .error .outOfBounds

def set (q : Qubo α) (i j : Nat) (value : α) : Except Fault (Qubo α) :=
  if inside : i ≤ j ∧ j < q.size then
    .ok (q.put ⟨i, Nat.lt_of_le_of_lt inside.1 inside.2⟩ ⟨j, inside.2⟩ value)
  else .error (.entryOutside i j q.size)

variable [Coefficient α]

def add (q : Qubo α) (i j : Nat) (value : α) : Except Fault (Qubo α) := do
  let current ← q.get i j
  q.set i j (current + value)

def zero (size : Nat) : Qubo α := ⟨size, Vector.replicate _ 0⟩

def create (size : Nat) : Except Fault (Qubo α) :=
  if size < refusedSize then .ok (zero size) else .error .sizeRefused

/-- Later entries for a cell replace earlier ones. -/
def ofEntries (size : Nat) (entries : List (Nat × Nat × α)) : Except Fault (Qubo α) := do
  entries.foldlM (fun q (i, j, value) => q.set i j value) (← create size)

def negated (q : Qubo α) : Qubo α := { q with cells := q.cells.map (-·) }

def upperEntries (q : Qubo α) : List (Fin q.size × Fin q.size × α) :=
  (List.finRange q.size).flatMap fun i =>
    ((List.finRange q.size).filter (i ≤ ·)).map fun j => (i, j, q.cell i j)

end Qubo

end BinaryQuadratic
