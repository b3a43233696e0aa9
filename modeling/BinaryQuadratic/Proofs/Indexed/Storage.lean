import BinaryQuadratic.Proofs.Indexed.Positions
import BinaryQuadratic.Qubo

set_option autoImplicit false

/-! The cells of a matrix in one list that is written in place. A call that breaks off leaves behind
what it has written up to there; but all its checks come before its one write, so it leaves every
cell as it was. -/

namespace BinaryQuadratic

variable {α : Type}

namespace Qubo

inductive Call (α : Type)
  | set (i j : Nat) (value : α)
  | add (i j : Nat) (value : α)
  | negate

variable [Coefficient α]

def perform (q : Qubo α) : Call α → Except Fault (Qubo α)
  | .set i j value => q.set i j value
  | .add i j value => q.add i j value
  | .negate => .ok q.negated

/-- What a call leaves of the matrix, also one that breaks off. -/
def left (q : Qubo α) (call : Call α) : Qubo α :=
  match q.perform call with
  | .ok next => next
  | .error _ => q

end Qubo

namespace Indexed

structure Storage (α : Type) where
  size : Nat
  cells : List α

/-- A fault breaks an action off, but takes back nothing that was written before. -/
abbrev InPlace (α : Type) := ExceptT Fault (StateM (Storage α))

def getCell (i j : Nat) : InPlace α α := do
  let s ← get
  MonadExcept.ofExcept (readAt s.cells (i * s.size + j))

def setCell (i j : Nat) (value : α) : InPlace α Unit := do
  let s ← get
  if i ≤ j ∧ j < s.size then
    let cells ← MonadExcept.ofExcept (writeAt s.cells (i * s.size + j) value)
    set { s with cells := cells }
  else throw (.entryOutside i j s.size)

variable [Coefficient α]

def addCell (i j : Nat) (value : α) : InPlace α Unit := do
  let current ← getCell i j
  setCell i j (current + value)

def negateCells : InPlace α Unit := modify fun s => { s with cells := s.cells.map (-·) }

def action : Qubo.Call α → InPlace α Unit
  | .set i j value => setCell i j value
  | .add i j value => addCell i j value
  | .negate => negateCells

/-- How an action ends, and the cells after it. -/
def run {β : Type} (act : InPlace α β) (s : Storage α) : Except Fault β × Storage α :=
  (act.run.run s).run

def left (s : Storage α) (call : Qubo.Call α) : Storage α := (run (action call) s).2

/-! ### What the program gives -/

def listed (q : Qubo α) : Storage α := ⟨q.size, q.cells.toList⟩

/-- How a call on the cells of `q` ends that makes this of the matrix. -/
def ending (q : Qubo α) : Except Fault (Qubo α) → Except Fault Unit × Storage α
  | .ok next => (.ok (), listed next)
  | .error fault => (.error fault, listed q)

theorem listed_zero (size : Nat) :
    listed (Qubo.zero size : Qubo α) = ⟨size, List.replicate (size * size) 0⟩ :=
  congrArg (Storage.mk size) Vector.toList_replicate

omit [Coefficient α] in
theorem readAt_listed (q : Qubo α) (i j : Nat) :
    readAt (listed q).cells (i * q.size + j) = q.get i j := by
  unfold readAt Qubo.get listed
  simp only [Vector.length_toList, Vector.getElem_toList]

omit [Coefficient α] in
theorem writeAt_listed (q : Qubo α) (i j : Fin q.size) (value : α) :
    writeAt (listed q).cells (i.val * q.size + j.val) value = .ok (listed (q.put i j value)).cells :=
  writeAt_toList q.cells ⟨i.val * q.size + j.val, cell_lt i.isLt j.isLt⟩ value

omit [Coefficient α] in
theorem run_getCell (q : Qubo α) (i j : Nat) :
    run (getCell i j) (listed q) = (q.get i j, listed q) := by
  change run (MonadExcept.ofExcept (readAt (listed q).cells (i * q.size + j))) (listed q) = _
  rw [readAt_listed]
  cases q.get i j with
  | error fault => rfl
  | ok value => rfl

omit [Coefficient α] in
theorem run_setCell (q : Qubo α) (i j : Nat) (value : α) :
    run (setCell i j value) (listed q) = ending q (q.set i j value) := by
  change run (if i ≤ j ∧ j < q.size then
      MonadExcept.ofExcept (writeAt (listed q).cells (i * q.size + j) value) >>= fun cells =>
        set (Storage.mk q.size cells)
    else throw (.entryOutside i j q.size)) (listed q) = _
  unfold Qubo.set
  by_cases inside : i ≤ j ∧ j < q.size
  · have row : i < q.size := Nat.lt_of_le_of_lt inside.1 inside.2
    have written := writeAt_listed q ⟨i, row⟩ ⟨j, inside.2⟩ value
    rw [if_pos inside, dif_pos inside, written]
    rfl
  · rw [if_neg inside, dif_neg inside]
    rfl

omit [Coefficient α] in
theorem run_bind {β δ : Type} (first : InPlace α β) (next : β → InPlace α δ) (s : Storage α) :
    run (first >>= next) s =
      match run first s with
      | (.ok value, s') => run (next value) s'
      | (.error fault, s') => (.error fault, s') := by
  change (ExceptT.bindCont next (run first s).1 : StateM (Storage α) _) (run first s).2 = _
  obtain ⟨result, s'⟩ := run first s
  cases result with
  | ok value => rfl
  | error fault => rfl

/-- The cell is read before the place is checked, so a place past all cells is the first fault. -/
theorem run_addCell (q : Qubo α) (i j : Nat) (value : α) :
    run (addCell i j value) (listed q) = ending q (q.add i j value) := by
  unfold addCell Qubo.add
  rw [run_bind, run_getCell]
  cases q.get i j with
  | error fault => rfl
  | ok current => exact run_setCell q i j (current + value)

theorem run_negateCells (q : Qubo α) :
    run negateCells (listed q) = (.ok (), listed q.negated) := by
  have mapped : (listed q).cells.map (-·) = (listed q.negated).cells := Vector.toList_map.symm
  change ((.ok (), ⟨q.size, (listed q).cells.map (-·)⟩) : Except Fault Unit × Storage α) = _
  rw [mapped]
  rfl

/-- A call in place ends as it does on the matrix, and a fault leaves every cell as it was. -/
theorem run_action (q : Qubo α) (call : Qubo.Call α) :
    run (action call) (listed q) = ending q (q.perform call) := by
  cases call with
  | set i j value => exact run_setCell q i j value
  | add i j value => exact run_addCell q i j value
  | negate => exact run_negateCells q

theorem left_listed (q : Qubo α) (call : Qubo.Call α) : left (listed q) call = listed (q.left call) := by
  unfold left Qubo.left
  rw [run_action]
  cases q.perform call with
  | error fault => rfl
  | ok next => rfl

theorem foldl_left_listed (q : Qubo α) (calls : List (Qubo.Call α)) :
    calls.foldl left (listed q) = listed (calls.foldl Qubo.left q) := by
  induction calls generalizing q with
  | nil => rfl
  | cons call rest ih =>
      rw [List.foldl_cons, List.foldl_cons, left_listed]
      exact ih (q.left call)

end Indexed

end BinaryQuadratic
