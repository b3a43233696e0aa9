import BinaryQuadratic.Tabu.TabuList

set_option autoImplicit false

/-! Countdowns under the passing of iterations. All of them fall together, so lowering them in one
go or one by one comes to the same. -/

namespace BinaryQuadratic.TabuList

variable {n : Nat}

/-- The list after `count` iterations in which nothing was moved. -/
def lowered (t : TabuList n) (count : Nat) : TabuList n :=
  { t with countdown := t.countdown.map (· - count) }

theorem relax_eq_lowered (t : TabuList n) : t.relax = t.lowered 1 := rfl

theorem skipIdle_eq_lowered (t : TabuList n) : t.skipIdle = t.lowered t.shortest := rfl

@[simp] theorem get_lowered (t : TabuList n) (count : Nat) (v : Fin n) :
    (t.lowered count).countdown.get v = t.countdown.get v - count :=
  Vector.getElem_map (· - count) v.isLt

@[simp] theorem lowered_lowered (t : TabuList n) (first second : Nat) :
    (t.lowered first).lowered second = t.lowered (first + second) := by
  unfold lowered
  simp only [Vector.map_map]
  congr 2
  funext count
  exact Nat.sub_sub count first second

@[simp] theorem get_arm_self (t : TabuList n) (v : Fin n) (longer : Bool) :
    (t.arm v longer).countdown.get v =
      if longer then min (t.tenure + 1) greatestWord else t.tenure - 1 :=
  Vector.getElem_set_self v.isLt

theorem get_arm_of_ne (t : TabuList n) {u v : Fin n} (other : u ≠ v) (longer : Bool) :
    (t.arm u longer).countdown.get v = t.countdown.get v :=
  Vector.getElem_set_ne u.isLt v.isLt fun same => other (Fin.ext same)

theorem forbids_iff {t : TabuList n} {v : Fin n} : t.forbids v = true ↔ 0 < t.countdown.get v :=
  decide_eq_true_iff

theorem shortest_of_variable (t : TabuList n) (v : Fin n) :
    t.countdown.toList.min? = some t.shortest := by
  unfold shortest
  cases least : t.countdown.toList.min? with
  | none =>
      have empty : t.countdown.toList = [] := List.min?_eq_none_iff.mp least
      have count : t.countdown.toList.length = n := Vector.length_toList
      rw [empty] at count
      exact absurd v.isLt (by simp [← count])
  | some count => rfl

theorem shortest_le (t : TabuList n) (v : Fin n) : t.shortest ≤ t.countdown.get v := by
  have least := (List.min?_eq_some_iff.mp (t.shortest_of_variable v)).2
  exact least _ (Vector.mem_toList_iff.mpr (Vector.getElem_mem v.isLt))

theorem exists_get_eq_shortest (t : TabuList n) (v : Fin n) :
    ∃ u, t.countdown.get u = t.shortest := by
  have member := (List.min?_eq_some_iff.mp (t.shortest_of_variable v)).1
  obtain ⟨u, inside, same⟩ := Vector.getElem_of_mem (Vector.mem_toList_iff.mp member)
  exact ⟨⟨u, inside⟩, same⟩

/-- The shortest countdown lasts exactly as long as every variable is forbidden. -/
theorem forbids_lowered_all_iff (t : TabuList n) (v : Fin n) (count : Nat) :
    (∀ u, (t.lowered count).forbids u = true) ↔ count < t.shortest := by
  simp only [forbids_iff, get_lowered]
  constructor
  · intro all
    obtain ⟨u, same⟩ := t.exists_get_eq_shortest v
    have positive := all u
    omega
  · intro before u
    have least := t.shortest_le u
    omega

theorem forbids_all_iff (t : TabuList n) (v : Fin n) :
    (∀ u, t.forbids u = true) ↔ 0 < t.shortest := by
  have unchanged : t.lowered 0 = t := by
    unfold lowered
    simp
  rw [← t.forbids_lowered_all_iff v 0, unchanged]

end BinaryQuadratic.TabuList
