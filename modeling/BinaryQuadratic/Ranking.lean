import BinaryQuadratic.Coefficient

set_option autoImplicit false

/-! Stable orders by insertion, the ranking of variables by a value that each of them has, and the
cutting of a ranking into pieces. -/

namespace BinaryQuadratic

variable {β : Type}

def insertSorted (before : β → β → Bool) (a : β) : List β → List β
  | [] => [a]
  | b :: rest => if before a b then a :: b :: rest else b :: insertSorted before a rest

def insertionSort (before : β → β → Bool) (items : List β) : List β :=
  items.foldr (insertSorted before) []

theorem perm_insertSorted (before : β → β → Bool) (a : β) (items : List β) :
    (insertSorted before a items).Perm (a :: items) := by
  induction items with
  | nil => exact List.Perm.refl _
  | cons b rest ih =>
      unfold insertSorted
      cases before a b with
      | true => exact List.Perm.refl _
      | false => exact (ih.cons b).trans (List.Perm.swap a b rest)

theorem perm_insertionSort (before : β → β → Bool) (items : List β) :
    (insertionSort before items).Perm items := by
  induction items with
  | nil => exact List.Perm.refl _
  | cons a rest ih => exact (perm_insertSorted before a _).trans (ih.cons a)

/-- The greatest value first; equal values keep the order of their variables. -/
def ranking {α : Type} [Coefficient α] {n : Nat} (values : Vector α n) : List (Fin n) :=
  insertionSort (fun i j => Coefficient.ranksBefore (values.get i) (values.get j)) (List.finRange n)

theorem mem_ranking {α : Type} [Coefficient α] {n : Nat} (values : Vector α n) (v : Fin n) :
    v ∈ ranking values :=
  (perm_insertionSort _ _).mem_iff.mpr (List.mem_finRange v)

def chunks (width : Nat) (items : List β) : List (List β) :=
  (List.range ((items.length + width - 1) / width)).map fun k => (items.drop (k * width)).take width

end BinaryQuadratic
