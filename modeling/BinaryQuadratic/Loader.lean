import BinaryQuadratic.Qubo
import BinaryQuadratic.Text.Numeral
import BinaryQuadratic.Text.Token

set_option autoImplicit false

/-! Problem files. A header declares the size and the numbers of nodes and couplers; an entry gives
the coefficient of a node or a coupler; blank lines and comments count only for line numbers. The
first faulty line decides the error, and the counts are compared at the end. -/

namespace BinaryQuadratic

inductive Malformed
  | headerTooShort
  | entryTooShort
  | notANumber (token : List Char)
deriving DecidableEq

inductive LoadError
  | notUtf8
  | interrupted
  | malformed (line : Nat) (cause : Malformed)
  | entryBeforeHeader (line : Nat)
  | couplerOrder (line i j : Nat)
  | indexOutOfRange (line index size : Nat)
  | tooLarge (line size : Nat)
  | missingHeader
  | nodeCount (declared found : Nat)
  | couplerCount (declared found : Nat)
deriving DecidableEq

def Malformed.message : Malformed → String
  | .headerTooShort => "header needs `p qubo <topology> <maxNodes> <nNodes> <nCouplers>`"
  | .entryTooShort => "entry needs `<i> <j> <value>`"
  | .notANumber token => "cannot parse `" ++ String.ofList token ++ "`"

def LoadError.message : LoadError → String
  | .notUtf8 => "I/O error: stream did not contain valid UTF-8"
  | .interrupted => "I/O error: read failed"
  | .malformed line cause => s!"line {line}: " ++ cause.message
  | .entryBeforeHeader line => s!"line {line}: entry appears before the `p` header"
  | .couplerOrder line i j => s!"line {line}: coupler ({i}, {j}) must satisfy i < j"
  | .indexOutOfRange line index size => s!"line {line}: index {index} out of range for {size} variables"
  | .tooLarge line size => s!"line {line}: {size} variables do not fit in memory"
  | .missingHeader => "QUBO is not defined: missing `p` header"
  | .nodeCount declared found => s!"header declares {declared} nodes but {found} were given"
  | .couplerCount declared found => s!"header declares {declared} couplers but {found} were given"

structure Loading where
  qubo : Option (Qubo Binary64)
  declaredNodes : Nat
  declaredCouplers : Nat
  /-- The node entries of all lines, whatever header they follow. -/
  nodes : Nat
  couplers : Nat

namespace Loading

def start : Loading := ⟨none, 0, 0, 0, 0⟩

def number? {β : Type} (line : Nat) (read : List Char → Option β) (token : List Char) :
    Except LoadError β :=
  match read token with
  | some value => .ok value
  | none => .error (.malformed line (.notANumber token))

/-- A header starts a new matrix and a new declaration; entries counted before it stay counted. -/
def header (s : Loading) (line : Nat) : List (List Char) → Except LoadError Loading
  | _ :: _ :: _ :: size :: nodes :: couplers :: _ => do
    let size ← number? line Text.natural? size
    let nodes ← number? line Text.natural? nodes
    let couplers ← number? line Text.natural? couplers
    if refusedSize ≤ size then throw (.tooLarge line size)
    return { s with
      qubo := some (Qubo.zero size)
      declaredNodes := nodes
      declaredCouplers := couplers }
  | _ => .error (.malformed line .headerTooShort)

def place (s : Loading) (line : Nat) (q : Qubo Binary64) (i j : Nat) (value : Binary64) :
    Except LoadError Loading :=
  if row : i < q.size then
    if column : j < q.size then
      if i = j then
        .ok { s with qubo := some (q.put ⟨i, row⟩ ⟨j, column⟩ value), nodes := s.nodes + 1 }
      else if j < i then .error (.couplerOrder line i j)
      else .ok { s with qubo := some (q.put ⟨i, row⟩ ⟨j, column⟩ value), couplers := s.couplers + 1 }
    else .error (.indexOutOfRange line j q.size)
  else .error (.indexOutOfRange line i q.size)

def entry (s : Loading) (line : Nat) (tokens : List (List Char)) : Except LoadError Loading :=
  match s.qubo, tokens with
  | none, _ => .error (.entryBeforeHeader line)
  | some q, i :: j :: value :: _ => do
    let i ← number? line Text.natural? i
    let j ← number? line Text.natural? j
    let value ← number? line Text.decimal? value
    s.place line q i j value
  | some _, _ => .error (.malformed line .entryTooShort)

def readTokens (s : Loading) (line : Nat) (tokens : List (List Char)) : Except LoadError Loading :=
  match tokens with
  | [] => .ok s
  | ['c'] :: _ => .ok s
  | ['p'] :: _ => s.header line tokens
  | _ => s.entry line tokens

def readLine (s : Loading) (line : Nat) (bytes : List UInt8) : Except LoadError Loading :=
  match Text.decode? bytes with
  | none => .error .notUtf8
  | some text => s.readTokens line (Text.tokens text)

def readLines (lines : List (List UInt8)) : Except LoadError Loading :=
  (lines.zipIdx 1).foldlM (fun s (bytes, line) => s.readLine line bytes) start

def finish (s : Loading) : Except LoadError (Qubo Binary64) :=
  match s.qubo with
  | none => .error .missingHeader
  | some q =>
    if s.nodes ≠ s.declaredNodes then .error (.nodeCount s.declaredNodes s.nodes)
    else if s.couplers ≠ s.declaredCouplers then .error (.couplerCount s.declaredCouplers s.couplers)
    else .ok q

end Loading

def load (bytes : List UInt8) : Except LoadError (Qubo Binary64) := do
  (← Loading.readLines (Text.lines bytes)).finish

/-- A file whose reading broke off after these bytes. An unfinished last line is lost, and the
break is only reported if no line before it is faulty. -/
def loadInterrupted (bytes : List UInt8) : Except LoadError (Qubo Binary64) := do
  let _ ← Loading.readLines (Text.completeLines bytes)
  throw .interrupted

end BinaryQuadratic
