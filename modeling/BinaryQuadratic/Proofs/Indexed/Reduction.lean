import BinaryQuadratic.Proofs.Indexed.Evaluation
import BinaryQuadratic.Subproblem

set_option autoImplicit false

/-! Subproblems cut out with every index looked at. Over ascending indices inside the assignment every
cell that is set lies on or above the diagonal, and the held variables are those that a walk along
the indices leaves out. -/

namespace BinaryQuadratic

variable {α : Type} [Coefficient α] {n : Nat}

namespace Indexed

structure Subproblem (α : Type) where
  indices : List Nat
  qubo : Qubo α
  solution : List Bool

def copyCell (q : Qubo α) (first : Nat × Nat) (sub : Qubo α) (second : Nat × Nat) :
    Except Fault (Qubo α) := do
  sub.set first.2 second.2 (← q.get first.1 second.1)

/-- The couplings of an index to itself and to the indices after it. -/
def copyRow (q : Qubo α) (indices : List Nat) (sub : Qubo α) (first : Nat × Nat) :
    Except Fault (Qubo α) :=
  (indices.zipIdx.drop first.2).foldlM (copyCell q first) sub

/-- A step of the walk over all variables, where the indices are passed one by one. -/
def addHeld (q : Qubo α) (bits : List Bool) (v : Nat) (walk : α × List Nat) (j : Nat) :
    Except Fault (α × List Nat) := do
  let (sum, ahead) := walk
  if ahead.head? = some j then return (sum, ahead.tail)
  else if ← readAt bits j then return (sum + (← q.getCoupling v j), ahead)
  else return (sum, ahead)

def addClamp (q : Qubo α) (bits : List Bool) (indices : List Nat) (sub : Qubo α)
    (place : Nat × Nat) : Except Fault (Qubo α) := do
  let (v, a) := place
  let (clamp, _) ← (List.range bits.length).foldlM (addHeld q bits v) (0, indices)
  sub.add a a clamp

def reduce (indices : List Nat) (q : Qubo α) (bits : List Bool) : Except Fault (Subproblem α) := do
  let _ ← q.checkLength bits.length
  if indices.IsChain (· < ·) then
    if indices.getLast?.all (· < bits.length) then
      let copied ← indices.zipIdx.foldlM (copyRow q indices) (Qubo.zero indices.length)
      let clamped ← indices.zipIdx.foldlM (addClamp q bits indices) copied
      return ⟨indices, clamped, ← indices.mapM (readAt bits)⟩
    else throw (.indexOutside bits.length)
  else throw .indicesNotAscending

/-- The value at a place of a solution goes to the index at that place. -/
def writePlace (solution bits : List Bool) (place : Nat × Nat) : Except Fault (List Bool) := do
  writeAt bits place.1 (← readAt solution place.2)

def writeBack (indices : List Nat) (solution bits : List Bool) : Except Fault (List Bool) :=
  indices.zipIdx.foldlM (writePlace solution) bits

end Indexed

namespace Qubo

variable {m : Nat} {f : Fin m → Fin m → α}

omit [Coefficient α]

theorem cell_eq_iff (a b : Fin m) (cell : Nat) :
    a.val * m + b.val = cell ↔ cell / m = a.val ∧ cell % m = b.val := by
  constructor
  · rintro rfl
    exact ⟨cell_div b.isLt a, cell_mod b.isLt a⟩
  · rintro ⟨row, column⟩
    rw [← row, ← column]
    exact Nat.div_add_mod' cell m

theorem put_ofFn (a b : Fin m) (value : Fin m → Fin m → α) :
    (ofFn m f).put a b (value a b) =
      ofFn m fun i j => if i = a ∧ j = b then value i j else f i j := by
  unfold put ofFn
  refine congrArg (Qubo.mk m) (Vector.ext fun cell inside => ?_)
  rw [Vector.getElem_set, Vector.getElem_ofFn, Vector.getElem_ofFn]
  by_cases here : a.val * m + b.val = cell
  · obtain ⟨row, column⟩ := (cell_eq_iff a b cell).mp here
    refine (if_pos here).trans (Eq.trans ?_ (if_pos ⟨Fin.ext row, Fin.ext column⟩).symm)
    exact congrArg₂ value (Fin.ext row.symm) (Fin.ext column.symm)
  · refine (if_neg here).trans (if_neg fun same => here ?_).symm
    exact (cell_eq_iff a b cell).mpr ⟨congrArg Fin.val same.1, congrArg Fin.val same.2⟩

theorem set_ofFn {a b : Fin m} (ordered : a ≤ b) (value : Fin m → Fin m → α) :
    (ofFn m f).set a b (value a b) =
      .ok (ofFn m fun i j => if i = a ∧ j = b then value i j else f i j) := by
  have inside : a.val ≤ b.val ∧ b.val < (ofFn m f).size := ⟨ordered, b.isLt⟩
  unfold set
  rw [dif_pos inside]
  exact congrArg Except.ok (put_ofFn a b value)

theorem get_ofFn (a b : Fin m) : (ofFn m f).get a b = .ok (f a b) :=
  (get_eq_ok (q := ofFn m f) a b).trans (congrArg Except.ok (cell_ofFn f a b))

theorem zero_eq_ofFn [Coefficient α] (m : Nat) : (zero m : Qubo α) = ofFn m fun _ _ => 0 := by
  refine congrArg (Qubo.mk m) (Vector.ext fun cell inside => ?_)
  rw [Vector.getElem_replicate, Vector.getElem_ofFn]

/-- Cells that are set in turn, each to a value of its own. -/
theorem foldl_cells {ι : Type} (value : Fin m → Fin m → α) (sets : ι → Fin m → Fin m → Prop)
    [∀ place i j, Decidable (sets place i j)] (places : List ι) (f : Fin m → Fin m → α)
    {i j : Fin m} {touched : Prop} [Decidable touched]
    (touched_iff : (∃ place ∈ places, sets place i j) ↔ touched) :
    (places.foldl (fun f place i j => if sets place i j then value i j else f i j) f) i j =
      if touched then value i j else f i j := by
  rw [← if_congr touched_iff rfl rfl]
  induction places generalizing f touched with
  | nil => simp
  | cons place rest ih =>
      rw [List.foldl_cons, ih _ Iff.rfl]
      by_cases later : ∃ place ∈ rest, sets place i j
      · rw [if_pos later, if_pos (List.exists_mem_cons_of_exists later)]
      · rw [if_neg later]
        refine if_congr ?_ rfl rfl
        rw [List.exists_mem_cons_iff, or_iff_left later]

/-- Cells on the diagonal, each added to in its turn. -/
theorem foldl_diagonal [Coefficient α] (extra : Fin m → α) {places : List (Fin m)}
    (distinct : places.Nodup) (f : Fin m → Fin m → α) (i j : Fin m) :
    (places.foldl (fun f a i j => if i = a ∧ j = a then f i j + extra i else f i j) f) i j =
      if i = j ∧ i ∈ places then f i j + extra i else f i j := by
  induction places generalizing f with
  | nil => simp
  | cons a rest ih =>
      obtain ⟨not_again, rest_distinct⟩ := List.nodup_cons.mp distinct
      rw [List.foldl_cons, ih rest_distinct]
      by_cases here : i = a ∧ j = a
      · obtain ⟨rfl, rfl⟩ := here
        rw [if_neg fun again => not_again again.2, if_pos ⟨rfl, rfl⟩,
          if_pos ⟨rfl, List.mem_cons_self⟩]
      · rw [if_neg here]
        refine if_congr ?_ rfl rfl
        constructor
        · rintro ⟨same, later⟩
          exact ⟨same, List.mem_cons_of_mem a later⟩
        · rintro ⟨rfl, member⟩
          exact ⟨rfl, (List.mem_cons.mp member).resolve_left fun same => here ⟨same, same⟩⟩

end Qubo

/-! ### What the program gives -/

namespace Indexed

variable {q : Qubo α} (fits : n ≤ q.size) {indices : List (Fin n)}

omit [Coefficient α] in
theorem zipIdx_map_val (indices : List (Fin n)) :
    (indices.map Fin.val).zipIdx =
      (List.finRange indices.length).map fun a => ((indices.get a).val, a.val) := by
  refine List.ext_getElem (by simp) fun a left right => ?_
  rw [List.getElem_zipIdx, List.getElem_map, List.getElem_map, List.getElem_finRange, Nat.zero_add]
  rfl

omit [Coefficient α] in
theorem mem_drop_finRange {m : Nat} {a b : Fin m} : b ∈ (List.finRange m).drop a ↔ a ≤ b := by
  rw [List.mem_drop_iff_getElem]
  constructor
  · rintro ⟨k, inside, rfl⟩
    rw [List.getElem_finRange]
    exact Nat.le_add_right _ _
  · intro ordered
    refine ⟨b - a, ?_, ?_⟩
    · rw [List.length_finRange, Nat.sub_add_cancel ordered]
      exact b.isLt
    · rw [List.getElem_finRange]
      exact Fin.ext (Nat.add_sub_cancel' ordered)

section Copying

variable (ascending : indices.Pairwise (· < ·))

include ascending

omit [Coefficient α] in
theorem copyRow_ofFn (f : Fin indices.length → Fin indices.length → α) (a : Fin indices.length) :
    copyRow q (indices.map Fin.val) (Qubo.ofFn indices.length f) ((indices.get a).val, a.val) =
      .ok (Qubo.ofFn indices.length fun i j =>
        if i = a ∧ a ≤ j then q.coupling fits (indices.get i) (indices.get j) else f i j) := by
  let value (i j : Fin indices.length) : α := q.coupling fits (indices.get i) (indices.get j)
  have sets : ∀ f : Fin indices.length → Fin indices.length → α,
      ∀ b ∈ (List.finRange indices.length).drop a,
      copyCell q ((indices.get a).val, a.val) (Qubo.ofFn indices.length f)
          ((indices.get b).val, b.val) =
        .ok (Qubo.ofFn indices.length fun i j => if i = a ∧ j = b then value i j else f i j) := by
    intro f b member
    have ordered : a ≤ b := mem_drop_finRange.mp member
    have indices_ordered : indices.get a ≤ indices.get b :=
      (ascending.imp le_of_lt).rel_get_of_le ordered
    unfold copyCell
    rw [Qubo.get_of_le fits indices_ordered, ok_bind]
    exact Qubo.set_ofFn ordered value
  have copied := foldlM_eq_ok (Qubo.ofFn indices.length)
    (fun b : Fin indices.length => ((indices.get b).val, b.val)) _ sets f
  unfold copyRow
  rw [zipIdx_map_val, ← List.map_drop, copied]
  refine congrArg (fun f => Except.ok (Qubo.ofFn indices.length f)) (funext fun i => funext fun j => ?_)
  refine Qubo.foldl_cells value (fun b i j => i = a ∧ j = b) _ f ?_
  constructor
  · rintro ⟨b, later, rfl, rfl⟩
    exact ⟨rfl, mem_drop_finRange.mp later⟩
  · rintro ⟨rfl, later⟩
    exact ⟨j, mem_drop_finRange.mpr later, rfl, rfl⟩

/-- What is copied, row by row, is the part of the matrix on and above the diagonal. -/
theorem copyRows_zero :
    (indices.map Fin.val).zipIdx.foldlM (copyRow q (indices.map Fin.val))
        (Qubo.zero (indices.map Fin.val).length) =
      .ok (Qubo.ofFn indices.length fun i j =>
        if i ≤ j then q.coupling fits (indices.get i) (indices.get j) else 0) := by
  let value (i j : Fin indices.length) : α := q.coupling fits (indices.get i) (indices.get j)
  have copied := foldlM_eq_ok (Qubo.ofFn indices.length)
    (fun a : Fin indices.length => ((indices.get a).val, a.val)) (List.finRange indices.length)
    (fun f a _ => copyRow_ofFn fits ascending f a) fun _ _ => 0
  rw [zipIdx_map_val, List.length_map, Qubo.zero_eq_ofFn, copied]
  refine congrArg (fun f => Except.ok (Qubo.ofFn indices.length f)) (funext fun i => funext fun j => ?_)
  refine Qubo.foldl_cells value (fun a i j => i = a ∧ a ≤ j) _ _ ?_
  constructor
  · rintro ⟨_, _, rfl, later⟩
    exact later
  · intro later
    exact ⟨i, List.mem_finRange i, rfl, later⟩

/-! The held variables -/

omit ascending in
/-- The walk along ascending indices, at any place of it. What is ahead of it stands in the same order as
what is still to be looked at, so only its first index has to be compared. -/
theorem addHeld_walk (x : Assignment n) (v : Fin n) {todo ahead : List (Fin n)}
    (distinct : todo.Nodup) (along : ahead.Sublist todo) (sum : α) :
    (todo.map Fin.val).foldlM (addHeld q x.toList v.val) (sum, ahead.map Fin.val) =
      .ok (((todo.filter x.get).filter (!ahead.contains ·)).foldl
        (fun sum j => sum + q.coupling fits v j) sum, []) := by
  induction along generalizing sum with
  | slnil => rfl
  | @cons ahead rest j along ih =>
      obtain ⟨not_again, rest_distinct⟩ := List.nodup_cons.mp distinct
      -- No index ahead names `j`, so it is held and counts if it is on.
      have absent : j ∉ ahead := fun member => not_again (along.subset member)
      have not_next : (ahead.map Fin.val).head? ≠ some j.val := by
        intro next
        obtain ⟨k, member, same⟩ := List.mem_map.mp (List.mem_of_mem_head? next)
        exact absent (Fin.ext same ▸ member)
      have step : addHeld q x.toList v.val (sum, ahead.map Fin.val) j.val =
          .ok (if x.get j then sum + q.coupling fits v j else sum, ahead.map Fin.val) := by
        unfold addHeld
        simp only [if_neg not_next, readAt_toList, ok_bind]
        cases x.get j with
        | true =>
            simp only [if_true, Qubo.getCoupling_eq_ok fits, ok_bind]
            rfl
        | false => rfl
      rw [List.map_cons, List.foldlM_cons, step, ok_bind, ih rest_distinct, List.filter_cons]
      cases x.get j with
      | true => simp [absent]
      | false => rfl
  | @cons_cons ahead rest j along ih =>
      obtain ⟨not_again, rest_distinct⟩ := List.nodup_cons.mp distinct
      have step : addHeld q x.toList v.val (sum, (j :: ahead).map Fin.val) j.val =
          .ok (sum, ahead.map Fin.val) := by
        unfold addHeld
        exact if_pos rfl
      have left_out : ((j :: rest).filter x.get).filter (!(j :: ahead).contains ·) =
          (rest.filter x.get).filter (!ahead.contains ·) := by
        have itself : ¬(!(j :: ahead).contains j) = true := by simp
        rw [List.filter_comm, List.filter_cons, if_neg itself, List.filter_comm]
        refine List.filter_congr fun k member => ?_
        have other : k ≠ j := fun same => not_again (same ▸ (List.mem_filter.mp member).1)
        simp [other]
      change ((j.val :: rest.map Fin.val).foldlM (addHeld q x.toList v.val)
        (sum, (j :: ahead).map Fin.val)) = _
      rw [List.foldlM_cons, step, ok_bind, ih rest_distinct, left_out]

theorem clamp_walk (x : Assignment n) (v : Fin n) :
    (List.range n).foldlM (addHeld q x.toList v.val) (0, indices.map Fin.val) =
      .ok (Subproblem.clamp q fits (x.support.filter (!indices.contains ·)) v, []) := by
  have along : indices.Sublist (List.finRange n) := by
    have same : indices = (List.finRange n).filter (· ∈ indices) := by
      refine ascending.eq_of_mem_iff ((List.pairwise_lt_finRange n).filter _) fun v => ?_
      simp
    rw [same]
    exact List.filter_sublist
  rw [range_eq_map_val]
  exact addHeld_walk fits x v (List.nodup_finRange n) along 0

theorem addClamp_ofFn (x : Assignment n) (f : Fin indices.length → Fin indices.length → α)
    (a : Fin indices.length) :
    addClamp q x.toList (indices.map Fin.val) (Qubo.ofFn indices.length f)
        ((indices.get a).val, a.val) =
      .ok (Qubo.ofFn indices.length fun i j =>
        if i = a ∧ j = a then
          f i j + Subproblem.clamp q fits (x.support.filter (!indices.contains ·)) (indices.get i)
        else f i j) := by
  unfold addClamp Qubo.add
  simp only [Vector.length_toList, clamp_walk fits ascending, ok_bind, Qubo.get_ofFn]
  exact Qubo.set_ofFn le_rfl fun i j =>
    f i j + Subproblem.clamp q fits (x.support.filter (!indices.contains ·)) (indices.get i)

/-- The matrix of the subproblem, after both rounds over the indices. -/
theorem addClamps_ofFn (x : Assignment n) :
    (indices.map Fin.val).zipIdx.foldlM (addClamp q x.toList (indices.map Fin.val))
        (Qubo.ofFn indices.length fun i j =>
          if i ≤ j then q.coupling fits (indices.get i) (indices.get j) else 0) =
      .ok (Subproblem.matrix q fits x indices) := by
  have clamped := foldlM_eq_ok (Qubo.ofFn indices.length)
    (fun a : Fin indices.length => ((indices.get a).val, a.val)) (List.finRange indices.length)
    (fun f a _ => addClamp_ofFn fits ascending x f a) fun i j =>
      if i ≤ j then q.coupling fits (indices.get i) (indices.get j) else 0
  rw [zipIdx_map_val, clamped]
  unfold Subproblem.matrix
  refine congrArg (fun f => Except.ok (Qubo.ofFn indices.length f)) (funext fun i => funext fun j => ?_)
  have chosen : ∀ a, (Vector.ofFn indices.get).get a = indices.get a := fun a =>
    Vector.getElem_ofFn a.isLt
  rw [Qubo.foldl_diagonal _ (List.nodup_finRange _)]
  simp only [chosen]
  rcases lt_trichotomy i j with before | same | behind
  · rw [if_neg fun diagonal => before.ne diagonal.1, if_pos before.le, if_pos before]
  · subst same
    rw [if_pos ⟨rfl, List.mem_finRange i⟩, if_pos le_rfl, if_neg (lt_irrefl i), if_pos rfl]
  · rw [if_neg fun diagonal => behind.ne' diagonal.1, if_neg behind.not_ge, if_neg behind.not_gt,
      if_neg behind.ne']

end Copying

end Indexed

def Subproblem.listed (sub : Subproblem α n) : Indexed.Subproblem α :=
  ⟨sub.indices.map Fin.val, sub.qubo, sub.solution.toList⟩

namespace Indexed

variable {q : Qubo α} {indices : List (Fin n)}

omit [Coefficient α] in
/-- In ascending order the last index is the greatest. -/
theorem lt_of_getLast?_lt {indices : List Nat} (ascending : indices.Pairwise (· < ·))
    (last_lt : indices.getLast?.all (· < n) = true) : ∀ v ∈ indices, v < n := by
  rcases List.eq_nil_or_concat indices with rfl | ⟨front, last, rfl⟩
  · intro v member
    cases member
  · rw [List.concat_eq_append] at ascending last_lt ⊢
    have bound : last < n := by simpa using last_lt
    intro v member
    rcases List.mem_append.mp member with earlier | same
    · have before := (List.pairwise_append.mp ascending).2.2 v earlier last List.mem_cons_self
      exact before.trans bound
    · rw [List.mem_singleton.mp same]
      exact bound

theorem reduce_eq_ok (fits : n ≤ q.size) (ascending : indices.Pairwise (· < ·)) (x : Assignment n) :
    reduce (indices.map Fin.val) q x.toList = .ok (Subproblem.ofIndices q fits x indices).listed := by
  have chain : (indices.map Fin.val).IsChain (· < ·) :=
    ((List.pairwise_map (f := Fin.val)).mpr ascending).isChain
  have inside : (indices.map Fin.val).getLast?.all (· < x.toList.length) = true := by
    rw [List.getLast?_map, Vector.length_toList]
    cases indices.getLast? with
    | none => rfl
    | some v => exact decide_eq_true v.isLt
  have solution_eq : (indices.map Fin.val).mapM (readAt x.toList) =
      .ok (Subproblem.ofIndices q fits x indices).solution.toList := by
    have values : indices.map x.get = (Vector.ofFn fun k => x.get (indices.get k)).toList := by
      rw [Vector.toList_ofFn]
      exact (congrArg (List.map x.get) (List.ofFn_get indices)).symm.trans List.map_ofFn
    rw [mapM_eq_ok Fin.val indices fun v _ => readAt_toList x v, values]
    rfl
  have measured : q.checkLength x.toList.length = .ok ⟨x.length_toList.trans_le fits⟩ :=
    Qubo.checkLength_of_fits _
  unfold reduce
  rw [measured, ok_bind, if_pos chain, if_pos inside, copyRows_zero fits ascending, ok_bind,
    addClamps_ofFn fits ascending, ok_bind, solution_eq]
  rfl

/-- Over any indices the walks give what is cut out over variables, or the same fault. -/
theorem reduce_listed (fits : n ≤ q.size) (indices : List Nat) (x : Assignment n) :
    reduce indices q x.toList =
      (BinaryQuadratic.reduce indices q x).map Subproblem.listed := by
  have measured : q.checkLength x.toList.length = .ok ⟨x.length_toList.trans_le fits⟩ :=
    Qubo.checkLength_of_fits _
  by_cases ascending : indices.Pairwise (· < ·)
  · by_cases inside : ∀ v ∈ indices, v < n
    · have cut := reduce_eq_ok fits (pairwise_pmap_mk ascending inside) x
      rw [map_val_pmap_mk] at cut
      rw [reduce_of_ascending fits x ascending inside, cut]
      rfl
    · have outside : ¬indices.getLast?.all (· < x.toList.length) = true := by
        rw [Vector.length_toList]
        exact fun last => inside (lt_of_getLast?_lt ascending last)
      unfold reduce BinaryQuadratic.reduce
      rw [measured, ok_bind, if_pos ascending.isChain, if_neg outside, Vector.length_toList,
        Qubo.checkLength_of_fits fits]
      simp only [ok_bind, if_pos ascending, dif_neg inside]
      rfl
  · have no_chain : ¬indices.IsChain (· < ·) := mt List.isChain_iff_pairwise.mp ascending
    unfold reduce BinaryQuadratic.reduce
    rw [measured, ok_bind, if_neg no_chain, Qubo.checkLength_of_fits fits]
    simp only [ok_bind, if_neg ascending]
    rfl

theorem writeBack_from (indices : List (Fin n)) {values passed rest : List Bool}
    (split : values = passed ++ rest) (enough : indices.length ≤ rest.length) (x : Assignment n) :
    ((indices.map Fin.val).zipIdx passed.length).foldlM (writePlace values) x.toList =
      .ok (BinaryQuadratic.writeBack indices rest x).2.toList := by
  induction indices generalizing passed rest x with
  | nil => rfl
  | cons v indices ih =>
      cases rest with
      | nil => exact absurd enough (Nat.not_succ_le_zero _)
      | cons value rest =>
          have read : readAt values passed.length = .ok value := by
            unfold readAt
            simp [split]
          have split' : values = (passed ++ [value]) ++ rest := by
            rw [split, List.append_assoc, List.singleton_append]
          have onward := ih split' (Nat.le_of_succ_le_succ enough) (x.set v.val value v.isLt)
          rw [List.length_append, List.length_singleton] at onward
          rw [List.map_cons, List.zipIdx_cons, List.foldlM_cons]
          unfold writePlace
          rw [read, ok_bind, writeAt_toList, ok_bind]
          exact onward

theorem writeBack_eq_ok (indices : List (Fin n)) (y : Assignment indices.length) (x : Assignment n) :
    writeBack (indices.map Fin.val) y.toList x.toList =
      .ok (BinaryQuadratic.writeBack indices y.toList x).2.toList :=
  writeBack_from indices (List.nil_append y.toList).symm y.length_toList.ge x

end Indexed

end BinaryQuadratic
