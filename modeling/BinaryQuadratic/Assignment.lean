set_option autoImplicit false

/-! Assignments of zero or one to variables. -/

namespace BinaryQuadratic

abbrev Assignment (n : Nat) := Vector Bool n

namespace Assignment

variable {n : Nat}

def allZero (n : Nat) : Assignment n := Vector.replicate n false

def support (x : Assignment n) : List (Fin n) := (List.finRange n).filter x.get

def toggle (x : Assignment n) (v : Fin n) : Assignment n := x.set v.val (!x.get v) v.isLt

theorem ext_get {x y : Assignment n} (same : ∀ i, x.get i = y.get i) : x = y :=
  Vector.ext fun i inside => same ⟨i, inside⟩

@[simp] theorem get_set (x : Assignment n) (v i : Fin n) (value : Bool) :
    (x.set v.val value v.isLt).get i = if i = v then value else x.get i := by
  change (x.set v.val value v.isLt)[i.val] = _
  rw [Vector.getElem_set]
  by_cases same : i = v
  · rw [if_pos (congrArg Fin.val same).symm, if_pos same]
  · rw [if_neg fun equal => same (Fin.ext equal.symm), if_neg same]
    rfl

@[simp] theorem get_toggle (x : Assignment n) (v i : Fin n) :
    (x.toggle v).get i = if i = v then !x.get v else x.get i :=
  get_set x v i _

@[simp] theorem toggle_toggle (x : Assignment n) (v : Fin n) : (x.toggle v).toggle v = x := by
  apply ext_get
  intro i
  by_cases same : i = v
  · simp [same]
  · simp [same]

end Assignment

end BinaryQuadratic
