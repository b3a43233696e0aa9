set_option autoImplicit false

/-! What a caller can do wrong: an argument that does not fit the matrix or the assignment. -/

namespace BinaryQuadratic

inductive Fault
  | assignmentTooLong (length size : Nat)
  | entryOutside (row column size : Nat)
  | indicesNotAscending
  | indexOutside (count : Nat)
  | outOfBounds
  | sizeRefused
  | countOverflow
deriving DecidableEq

/-- The text of a fault; positions, sizes and counts out of range have none of their own. -/
def Fault.message : Fault → Option String
  | .assignmentTooLong length size => some s!"solution has {length} bits but matrix has size {size}"
  | .entryOutside row column size =>
      some s!"entry ({row}, {column}) outside upper triangle of size {size}"
  | .indicesNotAscending => some "sub-problem indices must be strictly ascending"
  | .indexOutside count => some s!"sub-problem index out of range for {count} variables"
  | .outOfBounds => none
  | .sizeRefused => none
  | .countOverflow => none

end BinaryQuadratic
