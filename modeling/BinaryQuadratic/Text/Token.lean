set_option autoImplicit false

/-! Lines of bytes and tokens of characters. -/

namespace BinaryQuadratic.Text

/-- The characters with the Unicode property White_Space. -/
def isBlank (c : Char) : Bool :=
  let code := c.toNat
  (9 ≤ code && code ≤ 13) || code = 0x20 || code = 0x85 || code = 0xa0 || code = 0x1680 ||
    (0x2000 ≤ code && code ≤ 0x200a) || code = 0x2028 || code = 0x2029 || code = 0x202f ||
    code = 0x205f || code = 0x3000

theorem isBlank_of_isWhitespace {c : Char} (blank : c.isWhitespace = true) : isBlank c = true := by
  simp only [Char.isWhitespace, Bool.or_eq_true, decide_eq_true_eq] at blank
  rcases blank with ((rfl | rfl) | rfl) | rfl <;> decide

/-- A word that is complete goes in front of the words after it; an empty one is none. -/
def closeWord : List Char × List (List Char) → List (List Char)
  | ([], words) => words
  | (word, words) => word :: words

def extendWord (c : Char) (state : List Char × List (List Char)) : List Char × List (List Char) :=
  if isBlank c then ([], closeWord state) else (c :: state.1, state.2)

def tokens (line : List Char) : List (List Char) := closeWord (line.foldr extendWord ([], []))

def lineFeed : UInt8 := 10

def extendLine (byte : UInt8) (pieces : List (List UInt8)) : List (List UInt8) :=
  if byte = lineFeed then [] :: pieces
  else match pieces with
    | [] => [[byte]]
    | line :: rest => (byte :: line) :: rest

/-- The bytes before each line feed, and last those after the final one. -/
def pieces (bytes : List UInt8) : List (List UInt8) := bytes.foldr extendLine [[]]

/-- The lines of a text. An empty piece after the final line feed is no line. -/
def lines (bytes : List UInt8) : List (List UInt8) :=
  let pieces := pieces bytes
  if pieces.getLast? = some [] then pieces.dropLast else pieces

def completeLines (bytes : List UInt8) : List (List UInt8) := (pieces bytes).dropLast

/-- The characters of a line in UTF-8, if it is well formed. -/
def decode? (line : List UInt8) : Option (List Char) :=
  (String.fromUTF8? ⟨line.toArray⟩).map (·.toList)

end BinaryQuadratic.Text
