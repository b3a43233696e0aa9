import BinaryQuadratic.Random.Generator

set_option autoImplicit false

/-! A generator that reads its words from a list. When the list is used up it starts again, every
word moved on by a fixed odd step, so that no draw repeats for ever. -/

namespace BinaryQuadratic

structure Scripted where
  words : Array UInt64
  nonempty : 0 < words.size
  taken : Nat

namespace Scripted

def next (g : Scripted) : UInt64 × Scripted :=
  have inside : g.taken % g.words.size < g.words.size := Nat.mod_lt _ g.nonempty
  (g.words[g.taken % g.words.size] + (g.taken / g.words.size).toUInt64 * 0x9e3779b97f4a7c15,
    { g with taken := g.taken + 1 })

instance : Generator Scripted where
  next32 g := let (word, g) := g.next; (word.toUInt32, g)
  next64 := next

end Scripted

end BinaryQuadratic
