import BinaryQuadratic.Proofs.Indexed.Evaluation
import BinaryQuadratic.Proofs.Indexed.Storage
import BinaryQuadratic.Proofs.Negation

set_option autoImplicit false

/-! What a history of calls leaves in the cells of a matrix. Every cell stands at a place of its own, so
what it holds comes from the calls for it and from the negations between them; the cells below the
diagonal are only ever negated. -/

namespace BinaryQuadratic

namespace Qubo

variable {α : Type} {q : Qubo α}

theorem place_inj {n i j k l : Nat} (column : j < n) (column' : l < n) :
    i * n + j = k * n + l ↔ i = k ∧ j = l := by
  constructor
  · intro same
    have rows : i = k := by
      rw [← cell_div column i, same, cell_div column' k]
    rw [rows] at same
    exact ⟨rows, Nat.add_left_cancel same⟩
  · rintro ⟨rfl, rfl⟩
    rfl

theorem get_of_lt {i j : Nat} (row : i < q.size) (column : j < q.size) :
    q.get i j = .ok (q.cell ⟨i, row⟩ ⟨j, column⟩) :=
  get_eq_ok ⟨i, row⟩ ⟨j, column⟩

theorem get_put {k l : Nat} (row : k < q.size) (column : l < q.size) (i j : Fin q.size) (value : α) :
    (q.put i j value).get k l = if i.val = k ∧ j.val = l then .ok value else q.get k l := by
  have written : (q.put i j value).cell ⟨k, row⟩ ⟨l, column⟩ =
      if i.val * q.size + j.val = k * q.size + l then value else q.cell ⟨k, row⟩ ⟨l, column⟩ :=
    Vector.getElem_set (cell_lt i.isLt j.isLt) (cell_lt row column)
  refine (get_of_lt (q := q.put i j value) row column).trans ?_
  rw [get_of_lt row column, written, if_congr (place_inj j.isLt column) rfl rfl]
  exact apply_ite Except.ok _ _ _

/-- Numbers that are written into different cells can be written in any order. -/
theorem put_comm {i j k l : Fin q.size} (apart : ¬(i.val = k.val ∧ j.val = l.val)) (first second : α) :
    (q.put i j first).put k l second = (q.put k l second).put i j first := by
  have different : i.val * q.size + j.val ≠ k.val * q.size + l.val := fun same =>
    apart ((place_inj j.isLt l.isLt).mp same)
  exact congrArg (Qubo.mk q.size) (Vector.set_comm first second different)

theorem set_of_outside {i j : Nat} (outside : ¬(i ≤ j ∧ j < q.size)) (value : α) :
    q.set i j value = .error (.entryOutside i j q.size) :=
  dif_neg outside

/-! ### One call -/

variable [Coefficient α]

namespace Call

/-- The cell that a call is for; a negation is for all of them. -/
def place? : Call α → Option (Nat × Nat)
  | .set i j _ => some (i, j)
  | .add i j _ => some (i, j)
  | .negate => none

/-- What a call makes of the number in a cell. -/
def apply (current : α) : Call α → α
  | .set _ _ value => value
  | .add _ _ value => current + value
  | .negate => -current

def concerns (i j : Nat) (call : Call α) : Bool := call.place?.all (· = (i, j))

/-- A call that changes the cell: it does not if the cell is below the diagonal. -/
def reaches (i j : Nat) (call : Call α) : Bool := call.place?.all fun place => place = (i, j) ∧ i ≤ j

end Call

variable {call : Call α} {i j : Nat}

omit [Coefficient α] in
theorem eq_negate_of_no_place (none_placed : call.place? = none) : call = .negate := by
  cases call with
  | negate => rfl
  | set => cases none_placed
  | add => cases none_placed

theorem perform_of_inside (inside : i ≤ j ∧ j < q.size) (placed : call.place? = some (i, j)) :
    q.perform call = .ok (q.put ⟨i, Nat.lt_of_le_of_lt inside.1 inside.2⟩ ⟨j, inside.2⟩
      (call.apply (q.cell ⟨i, Nat.lt_of_le_of_lt inside.1 inside.2⟩ ⟨j, inside.2⟩))) := by
  cases call with
  | set i' j' value =>
      cases placed
      exact dif_pos inside
  | add i' j' value =>
      cases placed
      have row : i < q.size := Nat.lt_of_le_of_lt inside.1 inside.2
      change (q.get i j >>= fun current => q.set i j (current + value)) = _
      rw [get_of_lt row inside.2]
      exact dif_pos inside
  | negate => cases placed

/-- A sum cannot even be formed if the place is past all cells. -/
theorem exists_fault_of_outside (outside : ¬(i ≤ j ∧ j < q.size))
    (placed : call.place? = some (i, j)) : ∃ fault, q.perform call = .error fault := by
  cases call with
  | set i' j' value =>
      cases placed
      exact ⟨_, set_of_outside outside value⟩
  | add i' j' value =>
      cases placed
      change ∃ fault, (q.get i j >>= fun current => q.set i j (current + value)) = .error fault
      cases q.get i j with
      | error fault => exact ⟨fault, rfl⟩
      | ok current => exact ⟨_, set_of_outside outside (current + value)⟩
  | negate => cases placed

theorem left_of_inside (inside : i ≤ j ∧ j < q.size) (placed : call.place? = some (i, j)) :
    q.left call = q.put ⟨i, Nat.lt_of_le_of_lt inside.1 inside.2⟩ ⟨j, inside.2⟩
      (call.apply (q.cell ⟨i, Nat.lt_of_le_of_lt inside.1 inside.2⟩ ⟨j, inside.2⟩)) := by
  unfold left
  rw [perform_of_inside inside placed]

theorem left_of_outside (outside : ¬(i ≤ j ∧ j < q.size)) (placed : call.place? = some (i, j)) :
    q.left call = q := by
  obtain ⟨fault, fails⟩ := exists_fault_of_outside outside placed
  unfold left
  rw [fails]

@[simp] theorem size_left (q : Qubo α) (call : Call α) : (q.left call).size = q.size := by
  cases placed : call.place? with
  | none =>
      rw [eq_negate_of_no_place placed]
      rfl
  | some place =>
      by_cases inside : place.1 ≤ place.2 ∧ place.2 < q.size
      · rw [left_of_inside inside placed]
        rfl
      · rw [left_of_outside inside placed]

omit [Coefficient α] in
theorem reaches_of_place {k l : Nat} (placed : call.place? = some (k, l)) :
    call.reaches i j = true ↔ (k = i ∧ l = j) ∧ i ≤ j := by
  unfold Call.reaches
  rw [placed]
  simp

/-- A call changes the cells that it reaches, and no other. -/
theorem get_left (call : Call α) (row : i < q.size) (column : j < q.size) :
    (q.left call).get i j =
      if call.reaches i j then (q.get i j).map call.apply else q.get i j := by
  cases placed : call.place? with
  | none =>
      rw [eq_negate_of_no_place placed, get_of_lt row column]
      refine (get_of_lt (q := q.negated) row column).trans ?_
      exact congrArg Except.ok (cell_negated q _ _)
  | some place =>
      obtain ⟨k, l⟩ := place
      by_cases inside : k ≤ l ∧ l < q.size
      · have row' : k < q.size := Nat.lt_of_le_of_lt inside.1 inside.2
        rw [left_of_inside inside placed, get_put row column]
        by_cases here : k = i ∧ l = j
        · obtain ⟨rfl, rfl⟩ := here
          have reached : call.reaches k l = true :=
            (reaches_of_place placed).mpr ⟨⟨rfl, rfl⟩, inside.1⟩
          rw [if_pos ⟨rfl, rfl⟩, if_pos reached, get_of_lt row column]
          rfl
        · have missed : ¬call.reaches i j = true := fun reached =>
            here ((reaches_of_place placed).mp reached).1
          rw [if_neg here, if_neg missed]
      · have missed : ¬call.reaches i j = true := by
          intro reached
          obtain ⟨⟨rfl, rfl⟩, ordered⟩ := (reaches_of_place placed).mp reached
          exact inside ⟨ordered, column⟩
        rw [left_of_outside inside placed, if_neg missed]

/-- A call for a cell on or above the diagonal goes through, and changes that cell alone. -/
theorem changes_of_inside (inside : i ≤ j ∧ j < q.size) (placed : call.place? = some (i, j)) :
    q.perform call = .ok (q.left call) ∧ (q.left call).get i j = (q.get i j).map call.apply ∧
      ∀ k l, k < q.size → l < q.size → (k, l) ≠ (i, j) → (q.left call).get k l = q.get k l := by
  have row : i < q.size := Nat.lt_of_le_of_lt inside.1 inside.2
  refine ⟨?_, ?_, ?_⟩
  · rw [left_of_inside inside placed]
    exact perform_of_inside inside placed
  · rw [get_left call row inside.2]
    exact if_pos ((reaches_of_place placed).mpr ⟨⟨rfl, rfl⟩, inside.1⟩)
  · intro k l row' column' other
    rw [get_left call row' column']
    apply if_neg
    intro reached
    obtain ⟨⟨rfl, rfl⟩, _⟩ := (reaches_of_place placed).mp reached
    exact other rfl

/-! ### All calls -/

@[simp] theorem size_foldl_left (q : Qubo α) (calls : List (Call α)) :
    (calls.foldl left q).size = q.size := by
  induction calls generalizing q with
  | nil => rfl
  | cons call rest ih =>
      rw [List.foldl_cons, ih, size_left]

/-- A cell holds what the calls that reach it make of its number one after the other. -/
theorem get_foldl_left (calls : List (Call α)) (row : i < q.size) (column : j < q.size) :
    (calls.foldl left q).get i j =
      (q.get i j).map ((calls.filter (·.reaches i j)).foldl Call.apply) := by
  induction calls generalizing q with
  | nil =>
      change q.get i j = (q.get i j).map id
      rw [get_of_lt row column]
      rfl
  | cons call rest ih =>
      have row' : i < (q.left call).size := (size_left q call).symm ▸ row
      have column' : j < (q.left call).size := (size_left q call).symm ▸ column
      rw [List.foldl_cons, ih row' column', get_left call row column, get_of_lt row column]
      by_cases reached : call.reaches i j = true
      · rw [if_pos reached, List.filter_cons_of_pos reached]
        rfl
      · rw [if_neg reached, List.filter_cons_of_neg reached]

section Created

variable {n : Nat} (calls : List (Call α))

theorem get_zero (row : i < n) (column : j < n) : (zero n : Qubo α).get i j = .ok 0 := by
  refine (get_of_lt (q := zero n) row column).trans ?_
  exact congrArg Except.ok (Vector.getElem_replicate (cell_lt row column))

omit [Coefficient α] in
theorem reaches_of_le (ordered : i ≤ j) (call : Call α) : call.reaches i j = call.concerns i j := by
  unfold Call.reaches Call.concerns
  simp only [ordered, and_true]

/-- On and above the diagonal every call for a cell reaches it. -/
theorem get_of_calls (ordered : i ≤ j) (column : j < n) :
    (calls.foldl left (zero n)).get i j =
      .ok ((calls.filter (·.concerns i j)).foldl Call.apply 0) := by
  have row : i < n := Nat.lt_of_le_of_lt ordered column
  have same : calls.filter (·.reaches i j) = calls.filter (·.concerns i j) :=
    List.filter_congr fun call _ => reaches_of_le ordered call
  rw [get_foldl_left calls (q := zero n) row column, get_zero row column, same]
  rfl

omit [Coefficient α] in
theorem eq_negate_of_reaches (below : j < i) {call : Call α} (reached : call.reaches i j = true) :
    call = .negate := by
  cases placed : call.place? with
  | none => exact eq_negate_of_no_place placed
  | some place =>
      have ordered := ((reaches_of_place placed).mp reached).2
      exact absurd below (Nat.not_lt.mpr ordered)

theorem getCoupling_of_calls (ordered : i ≤ j) (column : j < n) :
    let q := calls.foldl left (zero n)
    let value := (calls.filter (·.concerns i j)).foldl Call.apply 0
    q.getCoupling i j = .ok value ∧ q.getCoupling j i = .ok value := by
  intro q value
  have read : q.get i j = .ok value := get_of_calls calls ordered column
  constructor
  · unfold getCoupling
    rw [if_pos ordered]
    exact read
  · unfold getCoupling
    by_cases back : j ≤ i
    · have same : i = j := Nat.le_antisymm ordered back
      rw [if_pos back, ← same]
      rw [← same] at read
      exact read
    · rw [if_neg back]
      exact read

/-- Below the diagonal nothing but a negation reaches a cell. -/
theorem exists_get_below {zeros : α → Prop} (start : zeros 0) (kept : ∀ a, zeros a → zeros (-a))
    (below : j < i) (row : i < n) :
    ∃ value, (calls.foldl left (zero n)).get i j = .ok value ∧ zeros value := by
  have column : j < n := Nat.lt_trans below row
  refine ⟨(calls.filter (·.reaches i j)).foldl Call.apply 0, ?_, ?_⟩
  · rw [get_foldl_left calls (q := zero n) row column, get_zero row column]
    rfl
  · refine List.foldlRecOn _ _ start fun value held call member => ?_
    rw [eq_negate_of_reaches below (List.mem_filter.mp member).2]
    exact kept value held

end Created

end Qubo

open Qubo (Call)

/-- Any calls on a new matrix leave a square of cells, wherever some of them break off. A coupling is
what the calls for its pair have made of zero, with the negations between them, and a cell below the
diagonal holds a zero. A call now changes the one cell that it is for if this lies on or above the
diagonal; if not, then it breaks off and leaves every cell as it was. -/
theorem cells_of_calls {n : Nat} {start : Qubo Binary64} (creates : Qubo.create n = .ok start)
    (calls : List (Call Binary64)) :
    let q := calls.foldl Qubo.left start
    calls.foldl Indexed.left ⟨n, List.replicate (n * n) 0⟩ = Indexed.listed q ∧
    q.size = n ∧ (Indexed.listed q).cells.length = n * n ∧
    (∀ i j, i ≤ j → j < n →
      let value := (calls.filter (·.concerns i j)).foldl Call.apply 0
      q.getCoupling i j = .ok value ∧ q.getCoupling j i = .ok value) ∧
    (∀ i j, j < i → i < n → ∃ value, q.get i j = .ok value ∧ value.magnitude = 0) ∧
    ∀ call i j, call.place? = some (i, j) →
      (i ≤ j ∧ j < n → ∃ next, q.perform call = .ok next ∧
        Indexed.run (Indexed.action call) (Indexed.listed q) = (.ok (), Indexed.listed next) ∧
        next.get i j = (q.get i j).map call.apply ∧
        ∀ k l, k < n → l < n → (k, l) ≠ (i, j) → next.get k l = q.get k l) ∧
      (¬(i ≤ j ∧ j < n) → ∃ fault, q.perform call = .error fault ∧
        Indexed.run (Indexed.action call) (Indexed.listed q) = (.error fault, Indexed.listed q)) := by
  obtain rfl : Qubo.zero n = start := by
    unfold Qubo.create at creates
    split at creates
    · exact Except.ok.inj creates
    · cases creates
  intro q
  have size_eq : q.size = n := Qubo.size_foldl_left (Qubo.zero n) calls
  refine ⟨?_, size_eq, ?_, ?_, ?_, ?_⟩
  · rw [← Indexed.listed_zero]
    exact Indexed.foldl_left_listed (Qubo.zero n) calls
  · change q.cells.toList.length = n * n
    rw [Vector.length_toList, size_eq]
  · intro i j ordered column
    exact Qubo.getCoupling_of_calls calls ordered column
  · intro i j below row
    exact Qubo.exists_get_below calls rfl (fun _ zeros => zeros) below row
  · intro call i j placed
    rw [← size_eq, Indexed.run_action]
    constructor
    · intro inside
      obtain ⟨performs, changed, others⟩ := Qubo.changes_of_inside inside placed
      refine ⟨q.left call, performs, ?_, changed, others⟩
      rw [performs]
      rfl
    · intro outside
      obtain ⟨fault, breaks⟩ := Qubo.exists_fault_of_outside outside placed
      refine ⟨fault, breaks, ?_⟩
      rw [breaks]
      rfl

/-- Column 5 of the second row is a cell of the third one when it is read, and is refused after that. -/
theorem cells_of_calls_between_two_negations :
    let start : Qubo Binary64 := Qubo.zero 3
    let calls : List (Call Binary64) :=
      [.set 0 2 (.ofNat 3), .add 1 1 (.quietNaN true), .set 2 0 (.ofNat 7), .negate,
        .add 0 2 (.ofNat 1), .add 1 5 (.ofNat 7), .add 3 3 (.ofNat 7), .negate, .set 1 1 (-0), .negate]
    let q := calls.foldl Qubo.left start
    Qubo.create 3 = .ok start ∧
    calls.foldl Indexed.left ⟨3, List.replicate 9 0⟩ = Indexed.listed q ∧
    (q.getCoupling 0 2 = .ok (-.ofNat 2) ∧ q.getCoupling 2 0 = .ok (-.ofNat 2)) ∧
    (∃ value, q.get 2 0 = .ok value ∧ value.magnitude = 0) ∧
    (∃ next, q.perform (.add 0 2 (.ofNat 2)) = .ok next ∧
      next.get 0 2 = .ok 0 ∧ next.get 1 1 = q.get 1 1) ∧
    ∃ fault, q.perform (.add 3 3 (.ofNat 2)) = .error fault ∧
      Indexed.run (Indexed.action (.add 3 3 (.ofNat 2))) (Indexed.listed q) =
        (.error fault, Indexed.listed q) := by
  intro start calls q
  have creates : Qubo.create 3 = .ok start := rfl
  obtain ⟨in_place, _, _, couplings, zeros, changes⟩ := cells_of_calls creates calls
  have coupling_eq : (calls.filter (·.concerns 0 2)).foldl Call.apply 0 = -.ofNat 2 := by
    decide +kernel
  obtain ⟨read, read_back⟩ := couplings 0 2 (by decide) (by decide)
  rw [coupling_eq] at read read_back
  obtain ⟨next, performs, _, changed, others⟩ :=
    (changes (.add 0 2 (.ofNat 2)) 0 2 rfl).1 (by decide)
  refine ⟨creates, in_place, ⟨read, read_back⟩, zeros 2 0 (by decide) (by decide), ?_, ?_⟩
  · refine ⟨next, performs, ?_, others 1 1 (by decide) (by decide) (by decide)⟩
    have sum_eq : (-.ofNat 2 + .ofNat 2 : Binary64) = 0 := by decide +kernel
    have held : q.get 0 2 = q.getCoupling 0 2 := (if_pos (by decide)).symm
    rw [changed, held, read, ← sum_eq]
    rfl
  · exact (changes (.add 3 3 (.ofNat 2)) 3 3 rfl).2 (by decide)

end BinaryQuadratic
