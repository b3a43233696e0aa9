set_option autoImplicit false

/-! Sources of random words, and the draws that the search makes from them. A draw that repeats
until a word is acceptable is given a number of attempts, so that it is defined for every source. -/

namespace BinaryQuadratic

class Generator (γ : Type) where
  next32 : γ → UInt32 × γ
  next64 : γ → UInt64 × γ

/-- A computation that takes words from a generator and may be abandoned at a limit. -/
abbrev Draw (γ : Type) := StateT γ Option

def Draw.abandoned {γ β : Type} : Draw γ β := fun _ => none

def Draw.total {γ β : Type} (run : γ → β × γ) : Draw γ β := fun g => some (run g)

namespace Generator

variable {γ : Type} [Generator γ]

/-- True for the lower half of the 64-bit words. -/
def coin (g : γ) : Bool × γ :=
  let (word, g) := next64 g
  (decide (word < 0x8000000000000000), g)

def coins (n : Nat) (g : γ) : Vector Bool n × γ :=
  (List.finRange n).foldl
    (fun (tossed, g) (v : Fin n) => let (side, g) := coin g; (tossed.set v.val side v.isLt, g))
    (Vector.replicate n false, g)

/-- The high half of a 32-bit word times `n`, where words whose low half exceeds `zone` are thrown
away and drawn again. -/
def belowZone (zone n : Nat) (positive : 0 < n) : (redraws : Nat) → Draw γ (Fin n)
  | 0 => Draw.abandoned
  | redraws + 1 => fun g =>
    let (word, g) := next32 g
    let product := word.toNat * n
    if product % 0x100000000 ≤ zone then
      some (⟨product / 0x100000000, Nat.div_lt_of_lt_mul
        (Nat.mul_lt_mul_of_pos_right word.toNat_lt positive)⟩, g)
    else belowZone zone n positive redraws g

/-- A uniform number below `n < 2 ^ 32`; the zone is `n` shifted to the top of a word, less one. -/
def below (redraws n : Nat) (positive : 0 < n) : Draw γ (Fin n) :=
  belowZone (n <<< (31 - n.log2) - 1) n positive redraws

/-- A uniform number below `n < 2 ^ 32` with the largest zone that is a multiple of `n`. -/
def belowWide (redraws n : Nat) (positive : 0 < n) : Draw γ (Fin n) :=
  belowZone (0xffffffff - (0x100000000 - n) % n) n positive redraws

end Generator

end BinaryQuadratic
