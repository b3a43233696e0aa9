import BinaryQuadratic.Binary64
import BinaryQuadratic.Effort

set_option autoImplicit false

/-! The effort that a search may still spend. An improvement that comes late in the current window
moves the ceiling up, as long as extensions are left. -/

namespace BinaryQuadratic

structure Budget where
  ceiling : Nat
  window : Nat
  increment : Nat
  extensionsLeft : Nat
deriving DecidableEq

namespace Budget

/-- The first window reaches from the present effort to the ceiling; later ones grow by half of it. -/
def ofCeiling (ceiling : Nat) (effort : Effort) (extensions : Nat) : Budget :=
  let window := ceiling - effort.total
  { ceiling, window, increment := window / 2, extensionsLeft := extensions }

def isSpent (b : Budget) (effort : Effort) : Bool := b.ceiling ≤ effort.total

def usedShare (b : Budget) (effort : Effort) : Binary64 :=
  1 - Binary64.ofNat (b.ceiling - effort.total) / Binary64.ofNat b.window

def extendAfter : Binary64 := Binary64.ofFraction false 1 5

def improved (b : Budget) (effort : Effort) : Budget :=
  if extendAfter ≤ b.usedShare effort ∧ 0 < b.extensionsLeft then
    { b with
      ceiling := b.ceiling + b.increment
      window := b.window + b.increment
      extensionsLeft := b.extensionsLeft - 1 }
  else b

/-- An extension must not take the ceiling past the greatest word; a window is never longer. -/
def checked (b : Budget) (effort : Effort) : Except Breakdown Unit :=
  if b.ceiling ≤ greatestWord then .ok () else .error ⟨.countOverflow, effort⟩

end Budget

end BinaryQuadratic
