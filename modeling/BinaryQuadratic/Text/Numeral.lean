import BinaryQuadratic.Binary64

set_option autoImplicit false

/-! Numbers as they are written in a problem file: unsigned 64-bit integers and decimal fractions
with an optional exponent, read to the nearest double-precision number. -/

namespace BinaryQuadratic.Text

def digitValue (c : Char) : Nat := c.toNat - '0'.toNat

def digitsValue (digits : List Char) : Nat := digits.foldl (fun value c => 10 * value + digitValue c) 0

def splitSign : List Char → Bool × List Char
  | '-' :: rest => (true, rest)
  | '+' :: rest => (false, rest)
  | rest => (false, rest)

/-- Digits, after a plus sign or none, for a number of at most 64 bits. -/
def natural? (token : List Char) : Option Nat :=
  let digits := match token with
    | '+' :: rest => rest
    | rest => rest
  if digits ≠ [] ∧ digits.all Char.isDigit then
    let value := digitsValue digits
    if value < 0x10000000000000000 then some value else none
  else none

/-- The exponent after its letter. No further digit is taken in once the value exceeds 16 bits. -/
def exponent? (text : List Char) : Option Int :=
  let (negative, digits) := splitSign text
  if digits ≠ [] ∧ digits.all Char.isDigit then
    let size := digits.foldl
      (fun value c => if value < 0x10000 then 10 * value + digitValue c else value) 0
    some (if negative then -(size : Int) else size)
  else none

def scaled (negative : Bool) (digits : Nat) (exponent : Int) : Binary64 :=
  if exponent < 0 then Binary64.ofFraction negative digits (Nat.pow 10 exponent.natAbs)
  else Binary64.ofFraction negative (digits * Nat.pow 10 exponent.natAbs) 1

def exponentPart? : List Char → Option Int
  | [] => some 0
  | c :: rest => if c = 'e' ∨ c = 'E' then exponent? rest else none

/-- Digits with at most one point among, before or after them, at least one digit in all. -/
def fraction? (negative : Bool) (text : List Char) : Option Binary64 := do
  let whole := text.takeWhile Char.isDigit
  let (places, rest) := match text.dropWhile Char.isDigit with
    | '.' :: rest => (rest.takeWhile Char.isDigit, rest.dropWhile Char.isDigit)
    | rest => ([], rest)
  let digits := whole ++ places
  if digits = [] then none
  else
    let exponent ← exponentPart? rest
    return scaled negative (digitsValue digits) (exponent - places.length)

/-- The words for values that have no digits, in any case of letters. -/
def word? (negative : Bool) (text : List Char) : Option Binary64 :=
  let lower := text.map Char.toLower
  if lower = ['i', 'n', 'f'] ∨ lower = ['i', 'n', 'f', 'i', 'n', 'i', 't', 'y'] then
    some (Binary64.infinity negative)
  else if lower = ['n', 'a', 'n'] then some (Binary64.quietNaN negative)
  else none

def decimal? (token : List Char) : Option Binary64 :=
  let (negative, text) := splitSign token
  fraction? negative text <|> word? negative text

end BinaryQuadratic.Text
