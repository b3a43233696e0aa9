set_option autoImplicit false

/-! The range of 64-bit words, which counts and indices are held in, and the sizes that are refused. -/

namespace BinaryQuadratic

def greatestWord : Nat := 0xffffffffffffffff

def refusedSize : Nat := 1000000000

end BinaryQuadratic
