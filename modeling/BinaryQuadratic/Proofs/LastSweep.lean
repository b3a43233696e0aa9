import Mathlib.Data.List.Basic
import BinaryQuadratic.Binary64
import BinaryQuadratic.Proofs.Shuffling
import BinaryQuadratic.Proofs.Sweeps
import BinaryQuadratic.Random.Scripted

set_option autoImplicit false

/-! How a local search comes to rest, in any arithmetic. Its orders stay rearrangements of the
variables, so each sweep looks at every variable once, and the one sweep that toggles nothing has
found no positive cost anywhere. -/

namespace BinaryQuadratic.Walk

variable {α γ : Type} [Coefficient α] [Generator γ] {q : Qubo α} {n : Nat}

/-- The walk after sweeps in the given orders, one after another. -/
def sweepAll (start : Walk q n) (orders : List (Vector (Fin n) n)) : Walk q n :=
  orders.foldl (fun walk order => (walk.sweep order.toList).1) start

/-- A sweep that looks at every variable once. It toggles a variable just if the cost of it is
positive at that moment, and toggles nothing besides. -/
structure LooksOnceAtEach (walk : Walk q n) (order : Vector (Fin n) n) : Prop where
  perm : order.toList.Perm (List.finRange n)
  effort_eq : (walk.sweep order.toList).1.effort.total = walk.effort.total + n
  sublist : (walk.sweep order.toList).2.reverse.Sublist order.toList
  current_eq : (walk.sweep order.toList).1.current =
    (walk.sweep order.toList).2.reverse.foldl Tracked.flip walk.current
  toggled_iff : ∀ passed v rest, order.toList = passed ++ v :: rest →
    (v ∈ (walk.sweep order.toList).2 ↔ 0 < (walk.sweep passed).1.current.costs.get v)

theorem looksOnceAtEach_of_perm (walk : Walk q n) {order : Vector (Fin n) n}
    (perm : order.toList.Perm (List.finRange n)) : walk.LooksOnceAtEach order := by
  refine ⟨perm, ?_, ?_, ?_, ?_⟩
  · rw [fst_sweep, total_foldl_examine, Vector.length_toList]
  · rw [snd_sweep, List.reverse_reverse]
    exact walk.current.sublist_toggles order.toList
  · rw [snd_sweep, List.reverse_reverse, current_sweep]
  · intro passed v rest split
    have distinct : (passed ++ v :: rest).Nodup := by
      rw [← split]
      exact perm.nodup_iff.mpr (List.nodup_finRange n)
    rw [snd_sweep, List.mem_reverse, split, current_sweep]
    exact walk.current.mem_toggles_iff distinct

/-- A sweep that looks at every variable and toggles none leaves no positive cost. -/
theorem LooksOnceAtEach.not_pos {walk : Walk q n} {order : Vector (Fin n) n}
    (looks : walk.LooksOnceAtEach order) (none_toggled : (walk.sweep order.toList).2 = [])
    (v : Fin n) : ¬0 < (walk.sweep order.toList).1.current.costs.get v := by
  have member : v ∈ order.toList := looks.perm.mem_iff.mpr (List.mem_finRange v)
  rw [looks.current_eq, none_toggled]
  exact (walk.current.toggles_eq_nil_iff order.toList).mp
    ((snd_sweep_eq_nil_iff walk order.toList).mp none_toggled) v member

namespace Climbs

variable {redraws : Nat} {order : Vector (Fin n) n} {walk last : Walk q n} {g g' : γ}
  {orders : List (Vector (Fin n) n)} (climbs : Climbs redraws order walk g orders last g')

include climbs

theorem ne_nil : orders ≠ [] := by
  cases climbs with
  | still shuffled counted none_toggled => exact List.cons_ne_nil _ _
  | onward shuffled counted some_toggled rest => exact List.cons_ne_nil _ _

theorem last_eq_sweepAll : last = walk.sweepAll orders := by
  unfold sweepAll
  induction climbs with
  | still shuffled counted none_toggled => rfl
  | onward shuffled counted some_toggled rest ih => exact ih

theorem total_eq : last.effort.total = walk.effort.total + n * orders.length := by
  rw [climbs.last_eq, total_foldl_examine, Sweeps.length_examined]

theorem perm_of_mem {swept : Vector (Fin n) n} (member : swept ∈ orders) :
    swept.toList.Perm order.toList := by
  induction climbs with
  | still shuffled counted none_toggled =>
      rw [List.mem_singleton.mp member]
      exact perm_of_shuffle shuffled
  | onward shuffled counted some_toggled rest ih =>
      rcases List.mem_cons.mp member with same | later
      · rw [same]
        exact perm_of_shuffle shuffled
      · exact (ih later).trans (perm_of_shuffle shuffled)

/-- Of the sweeps, the last one and no other toggles nothing. -/
theorem toggles_nothing_iff {before rest : List (Vector (Fin n) n)} {swept : Vector (Fin n) n}
    (split : orders = before ++ swept :: rest) :
    ((walk.sweepAll before).sweep swept.toList).2 = [] ↔ rest = [] := by
  induction climbs generalizing before with
  | still shuffled counted none_toggled =>
      cases before with
      | nil =>
          cases split
          exact iff_of_true none_toggled rfl
      | cons first before => exact absurd (List.cons.inj split).2 (by simp)
  | onward shuffled counted some_toggled others ih =>
      cases before with
      | nil =>
          cases split
          exact iff_of_false some_toggled others.ne_nil
      | cons first before =>
          cases split
          exact ih rfl

/-- Every sweep looks at each variable once, because its order is rearranged from one that does. -/
theorem looksOnceAtEach (lists_all : order.toList.Perm (List.finRange n)) (midway : Walk q n)
    {swept : Vector (Fin n) n} (member : swept ∈ orders) : midway.LooksOnceAtEach swept :=
  midway.looksOnceAtEach_of_perm ((climbs.perm_of_mem member).trans lists_all)

theorem not_pos (lists_all : order.toList.Perm (List.finRange n)) (v : Fin n) :
    ¬0 < last.current.costs.get v := by
  obtain ⟨before, swept, split⟩ := (List.eq_nil_or_concat' orders).resolve_left climbs.ne_nil
  have member : swept ∈ orders := by
    rw [split]
    exact List.mem_append_right before List.mem_cons_self
  have looks := climbs.looksOnceAtEach lists_all (walk.sweepAll before) member
  have ends : last = ((walk.sweepAll before).sweep swept.toList).1 := by
    rw [climbs.last_eq_sweepAll, split]
    unfold sweepAll
    rw [List.foldl_append]
    rfl
  rw [ends]
  exact looks.not_pos ((climbs.toggles_nothing_iff split).mpr rfl) v

end Climbs

section Climb

variable {limits : Limits} {start last : Walk q n} {g g' : γ}

theorem perm_ofFn_id : (Vector.ofFn (id : Fin n → Fin n)).toList.Perm (List.finRange n) := by
  rw [Vector.toList_ofFn]
  exact .rfl

/-- No single toggle has a positive cost at the end of a local search. -/
theorem not_pos_of_climb (ends : climb limits start g = some (.ok last, g')) (v : Fin n) :
    ¬0 < last.current.costs.get v := by
  obtain ⟨orders, climbs⟩ := climbs_of_climbFrom ends
  exact climbs.not_pos perm_ofFn_id v

/-- A local search that returns has made one or more sweeps. Each looks at every variable once, at one
unit of effort, and toggles it just if the cost of it is positive at that moment; all but the last
toggle something, and the last toggles nothing. In the end no cost is positive. -/
theorem sweeps_of_climb (ends : climb limits start g = some (.ok last, g')) :
    (∀ v, ¬0 < last.current.costs.get v) ∧
    ∃ orders, orders ≠ [] ∧ last = start.sweepAll orders ∧
      last.effort.total = start.effort.total + n * orders.length ∧
      last.effort.total ≤ greatestWord ∧
      ∀ before order rest, orders = before ++ order :: rest →
        (start.sweepAll before).LooksOnceAtEach order ∧
        (((start.sweepAll before).sweep order.toList).2 = [] ↔ rest = []) := by
  obtain ⟨orders, climbs⟩ := climbs_of_climbFrom ends
  refine ⟨climbs.not_pos perm_ofFn_id, orders, climbs.ne_nil, climbs.last_eq_sweepAll, climbs.total_eq,
    climbs.total_le_greatestWord, ?_⟩
  intro before order rest split
  have member : order ∈ orders := by
    rw [split]
    exact List.mem_append_right before List.mem_cons_self
  exact ⟨climbs.looksOnceAtEach perm_ofFn_id _ member, climbs.toggles_nothing_iff split⟩

theorem sweeps_of_climb_beside_not_numbers :
    let tenths : Nat → Binary64 := fun count => .ofFraction false count 10
    let q : Qubo Binary64 := ⟨3, #v[tenths 3, .infinity true, tenths 7, 0, tenths 1, tenths 2, 0, 0,
      -tenths 6]⟩
    let fits : 3 ≤ q.size := by decide
    let start : Walk q 3 :=
      ⟨([1, 0, 1] : List (Fin 3)).foldl Tracked.flip
        (Tracked.ofAssignmentWithin q fits #v[false, true, false]), ⟨5⟩⟩
    let g : Scripted :=
      ⟨#[5, 0x9e3779b97f4a7c15, 0xdeadbeefcafebabe, 0x123456789abcdef0], by decide, 0⟩
    ∃ last g', climb (Limits.uniform 8) start g = some (.ok last, g') ∧
      (last.current.bits, last.effort.total) = (#v[true, false, true], 5 + 3 * 2) ∧
      last.current.costs = #v[.quietNaN false, .infinity true, -(tenths 7 + -tenths 6)] ∧
      (∀ v, ¬0 < last.current.costs.get v) ∧
      ∃ orders, orders ≠ [] ∧ last = start.sweepAll orders ∧
        last.effort.total = start.effort.total + 3 * orders.length ∧
        last.effort.total ≤ greatestWord ∧
        ∀ before order rest, orders = before ++ order :: rest →
          (start.sweepAll before).LooksOnceAtEach order ∧
          (((start.sweepAll before).sweep order.toList).2 = [] ↔ rest = []) := by
  intro tenths q fits start g
  have reported : ((climb (Limits.uniform 8) start g).map fun result =>
      result.1.toOption.map fun last =>
        ((last.current.bits, last.effort.total), last.current.costs)) =
        some (some ((#v[true, false, true], 11),
          #v[.quietNaN false, .infinity true, -(tenths 7 + -tenths 6)])) := by
    decide +kernel
  obtain ⟨last, g', ends, values⟩ := Attempt.exists_ok_of_report reported
  exact ⟨last, g', ends, (Prod.mk.inj values).1, (Prod.mk.inj values).2, sweeps_of_climb ends⟩

end Climb

end BinaryQuadratic.Walk
