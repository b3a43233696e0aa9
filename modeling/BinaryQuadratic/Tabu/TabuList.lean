import BinaryQuadratic.Fault
import BinaryQuadratic.Random.Generator
import BinaryQuadratic.Word

set_option autoImplicit false

/-! Countdowns that keep a variable from being moved again too soon. Each iteration lowers every
countdown by one; a moved variable is forbidden for the tenure, lengthened or shortened by one. -/

namespace BinaryQuadratic

def usualTenure (count : Nat) : Nat :=
  if count < 20 then 5
  else if count < 100 then 10
  else if count < 250 then 12
  else if count < 500 then 13
  else if count < 1000 then 21
  else if count < 2500 then 29
  else if count < 8000 then 34
  else 35

structure TabuList (n : Nat) where
  tenure : Nat
  countdown : Vector Nat n
deriving DecidableEq

namespace TabuList

variable {n : Nat}

def empty (n tenure : Nat) : TabuList n := ⟨tenure, Vector.replicate n 0⟩

/-- A countdown takes eight bytes, and the bytes of a list are counted by a signed word. -/
def create (n tenure : Nat) : Except Fault (TabuList n) :=
  if n < 0x1000000000000000 then .ok (empty n tenure) else .error .sizeRefused

def forbids (t : TabuList n) (v : Fin n) : Bool := 0 < t.countdown.get v

def relax (t : TabuList n) : TabuList n := { t with countdown := t.countdown.map (· - 1) }

/-- Forbid `v` for one iteration more than the tenure, or for one less. Countdowns stop growing at the
greatest word. -/
def arm (t : TabuList n) (v : Fin n) (longer : Bool) : TabuList n :=
  let count := if longer then min (t.tenure + 1) greatestWord else t.tenure - 1
  { t with countdown := t.countdown.set v.val count v.isLt }

def shortest (t : TabuList n) : Nat := t.countdown.toList.min?.getD 0

/-- Pass over as many iterations as the shortest countdown lasts. -/
def skipIdle (t : TabuList n) : TabuList n :=
  { t with countdown := t.countdown.map (· - t.shortest) }

def reset (t : TabuList n) : TabuList n := empty n t.tenure

/-! ### Variables given by any index -/

def remaining (t : TabuList n) (v : Nat) : Except Fault Nat :=
  if inside : v < n then .ok (t.countdown.get ⟨v, inside⟩) else .error .outOfBounds

def isTabu (t : TabuList n) (v : Nat) : Except Fault Bool := (t.remaining v).map (0 < ·)

/-- The coin that decides between longer and shorter is tossed before the index is looked at. -/
def forbid {γ : Type} [Generator γ] (t : TabuList n) (v : Nat) (g : γ) :
    Except Fault (TabuList n) × γ :=
  let (longer, g) := Generator.coin g
  (if inside : v < n then .ok (t.arm ⟨v, inside⟩ longer) else .error .outOfBounds, g)

end TabuList

end BinaryQuadratic
