import BinaryQuadratic.Proofs.Indexed.Positions
import BinaryQuadratic.Tracked

set_option autoImplicit false

/-! Energies, flip costs and toggles with every index looked at. The rows of the matrix and the lists of
bits and costs are read at positions that are counted up to, and none of them is out of range. -/

namespace BinaryQuadratic

variable {α : Type} [Coefficient α] {n : Nat}

namespace Indexed

/-- The row of `i` is read at the ones from `i` on, which are counted from there. -/
def addRow (q : Qubo α) (bits : List Bool) (total : α) (i : Nat) : Except Fault α := do
  let row ← q.row i
  let rest ← readFrom bits i
  (ones rest).foldlM (fun total j => return total + (← readAt row (i + j))) total

def energy (q : Qubo α) (bits : List Bool) : Except Fault α := do
  let _ ← q.checkLength bits.length
  (ones bits).foldlM (addRow q bits) 0

/-- The coupling of `i` and `j` stands in the row of the lesser one. -/
def addCoupling (q : Qubo α) (row : List α) (i : Nat) (sum : α) (j : Nat) : Except Fault α :=
  if i < j then return sum + (← readAt row j)
  else if j < i then return sum + (← q.get j i)
  else return sum

def flipCost (q : Qubo α) (bits : List Bool) (i : Nat) : Except Fault α := do
  let row ← q.row i
  let gain ← (ones bits).foldlM (addCoupling q row i) (← readAt row i)
  return Coefficient.signed (!(← readAt bits i)) gain

def flipCosts (q : Qubo α) (bits : List Bool) : Except Fault (List α) := do
  let _ ← q.checkLength bits.length
  (List.range bits.length).mapM (flipCost q bits)

structure Tracked (α : Type) where
  bits : List Bool
  energy : α
  costs : List α

def track (q : Qubo α) (bits : List Bool) : Except Fault (Tracked α) :=
  return ⟨bits, ← energy q bits, ← flipCosts q bits⟩

/-- Move the cost of the variable at `k` by its coupling to one that was turned to `on`. -/
def moveCost (coupling : Nat → Except Fault α) (bits : List Bool) (on : Bool) (costs : List α)
    (k : Nat) : Except Fault (List α) := do
  let apart := (← readAt bits k) != on
  writeAt costs k ((← readAt costs k) + Coefficient.signed apart (← coupling k))

/-- The couplings to the variables before `v` stand in their rows, the others in the row of `v`. -/
def flip (q : Qubo α) (s : Tracked α) (v : Nat) : Except Fault (Tracked α) := do
  let energy := s.energy + (← readAt s.costs v)
  let on := !(← readAt s.bits v)
  let bits ← writeAt s.bits v on
  let costs ← writeAt s.costs v (-(← readAt s.costs v))
  let row ← q.row v
  let costs ← (List.range v).foldlM (moveCost (q.get · v) bits on) costs
  let costs ← (List.range' (v + 1) (bits.length - (v + 1))).foldlM
    (moveCost (readAt row) bits on) costs
  return ⟨bits, energy, costs⟩

end Indexed

namespace Qubo

variable {q : Qubo α}

omit [Coefficient α]

theorem get_eq_ok (i j : Fin q.size) : q.get i j = .ok (q.cell i j) :=
  dif_pos (cell_lt i.isLt j.isLt)

theorem row_eq_ok (counted : q.size ≤ greatestWord) (i : Fin q.size) :
    q.row i = .ok (Vector.ofFn (q.cell i)).toList := by
  have inside : i.val < greatestWord ∧ (i.val + 1) * q.size ≤ q.size * q.size :=
    ⟨Nat.lt_of_lt_of_le i.isLt counted, Nat.mul_le_mul_right q.size i.isLt⟩
  have length_eq : (q.cells.toList.drop (i.val * q.size)).length = q.size * q.size - i.val * q.size := by
    rw [List.length_drop, Vector.length_toList]
  have enough : q.size ≤ q.size * q.size - i.val * q.size :=
    Nat.le_sub_of_add_le' (by rw [← Nat.succ_mul]; exact inside.2)
  unfold row
  rw [if_pos inside]
  refine congrArg Except.ok (List.ext_getElem ?_ fun j left right => ?_)
  · rw [List.length_take, length_eq, Nat.min_eq_left enough, Vector.length_toList]
  · rw [List.getElem_take, List.getElem_drop, Vector.getElem_toList, Vector.getElem_toList,
      Vector.getElem_ofFn]
    rfl

variable (fits : n ≤ q.size)

theorem getCoupling_eq_ok (i j : Fin n) : q.getCoupling i j = .ok (q.coupling fits i j) := by
  unfold getCoupling coupling
  by_cases ordered : i ≤ j
  · rw [if_pos (show i.val ≤ j.val from ordered), if_pos ordered]
    exact get_eq_ok (i.castLE fits) (j.castLE fits)
  · rw [if_neg (show ¬i.val ≤ j.val from ordered), if_neg ordered]
    exact get_eq_ok (j.castLE fits) (i.castLE fits)

theorem get_of_le {i j : Fin n} (ordered : i ≤ j) : q.get i j = .ok (q.coupling fits i j) := by
  have read := getCoupling_eq_ok fits i j
  unfold getCoupling at read
  rwa [if_pos (show i.val ≤ j.val from ordered)] at read

/-- The row of `i` holds its couplings to the variables from `i` on. -/
theorem exists_row (counted : q.size ≤ greatestWord) (i : Fin n) :
    ∃ cells, q.row i = .ok cells ∧
      ∀ j, i ≤ j → Indexed.readAt cells j.val = .ok (q.coupling fits i j) := by
  refine ⟨_, row_eq_ok counted (i.castLE fits), fun j ordered => ?_⟩
  refine (Indexed.readAt_toList _ (j.castLE fits)).trans ?_
  unfold coupling
  rw [if_pos ordered]
  exact congrArg Except.ok (Vector.getElem_ofFn _)

end Qubo

/-! ### What the program gives -/

namespace Indexed

variable {q : Qubo α} (fits : n ≤ q.size) (counted : q.size ≤ greatestWord) (x : Assignment n)

include counted

theorem addRow_eq_ok (total : α) (i : Fin n) :
    addRow q x.toList total i.val =
      .ok ((x.support.filter (i ≤ ·)).foldl (fun total j => total + q.coupling fits i j) total) := by
  obtain ⟨row, row_eq, reads⟩ := Qubo.exists_row fits counted i
  have from_eq : readFrom x.toList i.val = .ok (x.toList.drop i.val) := by
    unfold readFrom
    rw [Vector.length_toList, if_pos i.isLt.le]
  unfold addRow
  rw [row_eq, from_eq]
  let add (total : α) (j : Nat) : Except Fault α := return total + (← readAt row j)
  change (ones (x.toList.drop i.val)).foldlM (fun total j => add total (i + j)) total = _
  rw [← List.foldlM_map (g := add), ones_drop]
  refine foldlM_eq_ok id Fin.val _ (fun total j member => ?_) total
  have ordered : i ≤ j := of_decide_eq_true (List.mem_filter.mp member).2
  change (return total + (← readAt row j.val) : Except Fault α) = _
  rw [reads j ordered]
  rfl

theorem energy_eq_ok : energy q x.toList = .ok (q.energyWithin fits x) := by
  unfold energy
  rw [Vector.length_toList, Qubo.checkLength_of_fits fits, ones_toList]
  exact foldlM_eq_ok id Fin.val x.support
    (fun total i _ => addRow_eq_ok fits counted x total i) 0

theorem flipCost_eq_ok (i : Fin n) :
    flipCost q x.toList i.val = .ok (q.flipCost fits x x.support i) := by
  obtain ⟨row, row_eq, reads⟩ := Qubo.exists_row fits counted i
  have adds : ∀ sum, ∀ j ∈ x.support, addCoupling q row i.val sum j.val =
      .ok (if j ≠ i then sum + q.coupling fits i j else sum) := by
    intro sum j _
    unfold addCoupling
    rcases lt_trichotomy i j with before | same | after
    · rw [if_pos (show i.val < j.val from before), reads j before.le, if_pos before.ne']
      rfl
    · subst same
      rw [if_neg (Nat.lt_irrefl _), if_neg (Nat.lt_irrefl _), if_neg fun differs => differs rfl]
      rfl
    · rw [if_neg (show ¬i.val < j.val from after.not_gt), if_pos (show j.val < i.val from after),
        Qubo.get_of_le fits after.le, if_pos after.ne, Qubo.coupling_comm]
      rfl
  have gain_eq := foldlM_eq_ok id Fin.val x.support adds (q.coupling fits i i)
  unfold flipCost Qubo.flipCost
  simp only [row_eq, ok_bind, reads i le_rfl, ones_toList, readAt_toList, List.foldl_filter,
    decide_eq_true_eq]
  exact congrArg (· >>= _) gain_eq

theorem flipCosts_eq_ok : flipCosts q x.toList = .ok (q.flipCostsWithin fits x).toList := by
  unfold flipCosts Qubo.flipCostsWithin
  rw [Vector.length_toList, Qubo.checkLength_of_fits fits, range_eq_map_val, Vector.toList_ofFn,
    List.ofFn_eq_map]
  exact mapM_eq_ok Fin.val _ fun i _ => flipCost_eq_ok fits counted x i

end Indexed

def Tracked.listed {q : Qubo α} (s : Tracked q n) : Indexed.Tracked α :=
  ⟨s.bits.toList, s.energy, s.costs.toList⟩

namespace Indexed

theorem moveCost_eq_ok {coupling : Nat → Except Fault α} {value : α} {k : Fin n}
    (read : coupling k = .ok value) (x : Assignment n) (on : Bool) (costs : Vector α n) :
    moveCost coupling x.toList on costs.toList k.val =
      .ok (costs.set k.val (costs.get k + Coefficient.signed (x.get k != on) value) k.isLt).toList := by
  unfold moveCost
  simp only [readAt_toList, ok_bind, read, writeAt_toList]

/-- The costs once those at some of the positions have moved. -/
def movedCosts (coupling : Fin n → α) (x : Assignment n) (on : Bool) (positions : List Nat)
    (costs : Vector α n) : Vector α n :=
  Vector.ofFn fun k =>
    if k.val ∈ positions then costs.get k + Coefficient.signed (x.get k != on) (coupling k)
    else costs.get k

theorem get_movedCosts (coupling : Fin n → α) (x : Assignment n) (on : Bool) (positions : List Nat)
    (costs : Vector α n) (k : Fin n) :
    (movedCosts coupling x on positions costs).get k =
      if k.val ∈ positions then costs.get k + Coefficient.signed (x.get k != on) (coupling k)
      else costs.get k :=
  Vector.getElem_ofFn k.isLt

theorem moveCosts_eq_ok {read : Nat → Except Fault α} {coupling : Fin n → α} {positions : List Nat}
    (inside : ∀ i ∈ positions, i < n) (distinct : positions.Nodup)
    (reads : ∀ k : Fin n, k.val ∈ positions → read k = .ok (coupling k)) (x : Assignment n)
    (on : Bool) (costs : Vector α n) :
    positions.foldlM (moveCost read x.toList on) costs.toList =
      .ok (movedCosts coupling x on positions costs).toList := by
  obtain ⟨places, rfl⟩ := exists_map_val inside
  have passed := foldlM_eq_ok Vector.toList Fin.val places (fun costs k member =>
    moveCost_eq_ok (reads k (List.mem_map_of_mem member)) x on costs) costs
  rw [passed]
  refine congrArg (fun moved => Except.ok (Vector.toList moved)) (Vector.ext fun i bound => ?_)
  let k : Fin n := ⟨i, bound⟩
  have moved := get_foldl_set
    (fun k cost => cost + Coefficient.signed (x.get k != on) (coupling k)) distinct.of_map costs k
  have member_iff : k ∈ places ↔ i ∈ places.map Fin.val :=
    (List.mem_map_of_injective Fin.val_injective).symm
  refine moved.trans ((if_congr member_iff rfl rfl).trans ?_)
  exact (get_movedCosts coupling x on (places.map Fin.val) costs k).symm

/-- With `v` turned first and the others moved after it, those before it and then those behind it, all
costs are as they are in one pass. -/
theorem movedCosts_eq {q : Qubo α} (s : BinaryQuadratic.Tracked q n) (v : Fin n) :
    movedCosts (q.coupling s.fits v) (s.bits.set v.val (!s.bits.get v) v.isLt) (!s.bits.get v)
        (List.range' (v + 1) (n - (v + 1)))
        (movedCosts (q.coupling s.fits v) (s.bits.set v.val (!s.bits.get v) v.isLt) (!s.bits.get v)
          (List.range v) (s.costs.set v.val (-s.costs.get v) v.isLt)) =
      (s.flip v).costs := by
  refine Vector.ext fun i bound => ?_
  let k : Fin n := ⟨i, bound⟩
  have flipped : (s.flip v).costs.get k = if k = v then -s.costs.get v
      else s.costs.get k + Coefficient.signed (s.bits.get k != !s.bits.get v) (q.coupling s.fits v k) :=
    Vector.getElem_ofFn bound
  have behind_iff : k.val ∈ List.range' (v + 1) (n - (v + 1)) ↔ v < k := by
    rw [List.mem_range'_1]
    have := k.isLt
    omega
  have before_iff : k.val ∈ List.range v ↔ k < v := List.mem_range
  refine Eq.trans ?_ flipped.symm
  refine (get_movedCosts _ _ _ _ _ k).trans ?_
  rw [get_movedCosts, if_congr behind_iff rfl rfl, if_congr before_iff rfl rfl, get_set, get_set]
  rcases lt_trichotomy k v with before | same | behind
  · rw [if_neg before.not_gt, if_pos before, if_neg before.ne, if_neg before.ne, if_neg before.ne]
  · rw [if_neg same.not_gt, if_neg same.not_lt, if_pos same, if_pos same]
  · rw [if_pos behind, if_neg behind.not_gt, if_neg behind.ne', if_neg behind.ne', if_neg behind.ne']

variable {q : Qubo α} (counted : q.size ≤ greatestWord)

include counted

theorem track_eq_ok (fits : n ≤ q.size) (x : Assignment n) :
    track q x.toList = .ok (Tracked.ofAssignmentWithin q fits x).listed := by
  unfold track
  rw [energy_eq_ok fits counted, flipCosts_eq_ok fits counted]
  rfl

theorem flip_eq_ok (s : BinaryQuadratic.Tracked q n) (v : Fin n) :
    flip q s.listed v.val = .ok (s.flip v).listed := by
  obtain ⟨row, row_eq, reads⟩ := Qubo.exists_row s.fits counted v
  let on := !s.bits.get v
  let bits := s.bits.set v.val on v.isLt
  have moved_before : ∀ costs : Vector α n,
      (List.range v).foldlM (moveCost (q.get · v) bits.toList on) costs.toList =
        .ok (movedCosts (q.coupling s.fits v) bits on (List.range v) costs).toList := by
    refine moveCosts_eq_ok (fun i member => (List.mem_range.mp member).trans v.isLt)
      List.nodup_range (fun k member => ?_) bits on
    have before : k < v := List.mem_range.mp member
    rw [Qubo.get_of_le s.fits before.le, Qubo.coupling_comm]
  have moved_behind : ∀ costs : Vector α n,
      (List.range' (v + 1) (n - (v + 1))).foldlM (moveCost (readAt row) bits.toList on) costs.toList =
        .ok (movedCosts (q.coupling s.fits v) bits on (List.range' (v + 1) (n - (v + 1)))
          costs).toList := by
    refine moveCosts_eq_ok (fun i member => ?_) List.nodup_range' (fun k member => ?_) bits on
    · have bounds := List.mem_range'_1.mp member
      omega
    · exact reads k (Nat.le_of_succ_le (List.mem_range'_1.mp member).1)
  have length_eq : bits.toList.length = n := Vector.length_toList
  unfold flip Tracked.listed
  simp only [readAt_toList, writeAt_toList, ok_bind, row_eq]
  rw [moved_before, ok_bind, length_eq, moved_behind, ok_bind, movedCosts_eq]
  rfl

/-- At any index the walk along the row does what the toggle at a variable does, or is refused. -/
theorem flip_listed (s : BinaryQuadratic.Tracked q n) (v : Nat) :
    flip q s.listed v = (s.flipAt v).map Tracked.listed := by
  unfold Tracked.flipAt
  by_cases inside : v < n
  · rw [dif_pos inside]
    exact flip_eq_ok counted s ⟨v, inside⟩
  · have outside : readAt s.listed.costs v = .error .outOfBounds :=
      dif_neg (mt (lt_of_lt_of_eq · s.costs.length_toList) inside)
    unfold flip
    rw [dif_neg inside, outside]
    rfl

end Indexed

end BinaryQuadratic
