import BinaryQuadratic.Proofs.Indexed.Positions
import BinaryQuadratic.Proofs.Loading

set_option autoImplicit false

/-! Problem files read with every token looked up by its place and every entry written through the
check of the matrix. A token is only looked up in a line that is long enough, and an entry only
written on or above the diagonal, so no fault breaks a load off. -/

namespace BinaryQuadratic

variable {β δ : Type}

namespace Indexed

/-- A load that a fault may break off, and that otherwise comes out as the text has it. -/
abbrev Load := ExceptT LoadError (Except Fault)

/-- What comes out of a text without a fault. -/
def settled (outcome : Except LoadError β) : Load β := ExceptT.mk (.ok outcome)

def number (line : Nat) (read : List Char → Option β) (tokens : List (List Char)) (k : Nat) :
    Load β := do
  let token ← (readAt tokens k : Except Fault (List Char))
  settled (Loading.number? line read token)

def header (s : Loading) (line : Nat) (tokens : List (List Char)) : Load Loading :=
  if tokens.length < 6 then throw (.malformed line .headerTooShort)
  else do
    let size ← number line Text.natural? tokens 3
    let nodes ← number line Text.natural? tokens 4
    let couplers ← number line Text.natural? tokens 5
    if refusedSize ≤ size then throw (.tooLarge line size)
    else return { s with
      qubo := some (Qubo.zero size)
      declaredNodes := nodes
      declaredCouplers := couplers }

def checkIndex (line size index : Nat) : Load Unit :=
  if size ≤ index then throw (.indexOutOfRange line index size) else return

def count (s : Loading) (line i j : Nat) : Load Loading :=
  if i = j then return { s with nodes := s.nodes + 1 }
  else if j < i then throw (.couplerOrder line i j)
  else return { s with couplers := s.couplers + 1 }

/-- Both indices are checked against the size, then the entry is counted, and last it is written. -/
def place (s : Loading) (line : Nat) (q : Qubo Binary64) (i j : Nat) (value : Binary64) :
    Load Loading := do
  [i, j].forM (checkIndex line q.size)
  let s ← count s line i j
  return { s with qubo := some (← q.set i j value) }

def entry (s : Loading) (line : Nat) (tokens : List (List Char)) : Load Loading :=
  match s.qubo with
  | none => throw (.entryBeforeHeader line)
  | some q =>
    if tokens.length < 3 then throw (.malformed line .entryTooShort)
    else do
      let i ← number line Text.natural? tokens 0
      let j ← number line Text.natural? tokens 1
      let value ← number line Text.decimal? tokens 2
      place s line q i j value

def readTokens (s : Loading) (line : Nat) (tokens : List (List Char)) : Load Loading :=
  if tokens.head? = none ∨ tokens.head? = some ['c'] then return s
  else if tokens.head? = some ['p'] then header s line tokens
  else entry s line tokens

def readLine (s : Loading) (line : Nat) (bytes : List UInt8) : Load Loading :=
  match Text.decode? bytes with
  | none => throw .notUtf8
  | some text => readTokens s line (Text.tokens text)

def readLines (lines : List (List UInt8)) : Load Loading :=
  (lines.zipIdx 1).foldlM (fun s (bytes, line) => readLine s line bytes) Loading.start

def load (bytes : List UInt8) : Load (Qubo Binary64) := do
  settled (← readLines (Text.lines bytes)).finish

/-! ### What the program gives -/

theorem settled_bind {outcome : Except LoadError β} {next : β → Load δ}
    {next' : β → Except LoadError δ} (same : ∀ value, next value = settled (next' value)) :
    (settled outcome >>= next) = settled (outcome >>= next') := by
  cases outcome with
  | error failure => rfl
  | ok value => exact same value

theorem foldlM_eq_settled {σ ι : Type} {step : σ → ι → Load σ} {step' : σ → ι → Except LoadError σ}
    (same : ∀ s i, step s i = settled (step' s i)) (items : List ι) (s : σ) :
    items.foldlM step s = settled (items.foldlM step' s) := by
  induction items generalizing s with
  | nil => rfl
  | cons i rest ih =>
      rw [List.foldlM_cons, List.foldlM_cons, same]
      exact settled_bind ih

theorem number_eq_settled {line k : Nat} {read : List Char → Option β} {tokens : List (List Char)}
    {token : List Char} (found : tokens[k]? = some token) :
    number line read tokens k = settled (Loading.number? line read token) := by
  obtain ⟨inside, rfl⟩ := List.getElem?_eq_some_iff.mp found
  unfold number readAt
  rw [dif_pos inside]
  rfl

theorem header_eq_settled (s : Loading) (line : Nat) (tokens : List (List Char)) :
    header s line tokens = settled (s.header line tokens) := by
  match tokens with
  | [] | [_] | [_, _] | [_, _, _] | [_, _, _, _] | [_, _, _, _, _] => rfl
  | first :: kind :: topology :: size :: nodes :: couplers :: rest =>
      unfold header
      rw [if_neg (by simp), number_eq_settled rfl, number_eq_settled rfl, number_eq_settled rfl]
      refine settled_bind fun size => settled_bind fun nodes => settled_bind fun couplers => ?_
      by_cases refused : refusedSize ≤ size
      · rw [if_pos refused, if_pos refused]
        rfl
      · rw [if_neg refused, if_neg refused]
        rfl

theorem checkIndex_of_lt {line size index : Nat} (inside : index < size) :
    checkIndex line size index = settled (.ok ()) :=
  if_neg (Nat.not_le.mpr inside)

theorem checkIndex_of_not_lt {line size index : Nat} (outside : ¬index < size) :
    checkIndex line size index = settled (.error (.indexOutOfRange line index size)) :=
  if_pos (Nat.not_lt.mp outside)

/-- Where all checks of the text have passed, so does the check of the matrix. -/
theorem place_eq_settled (s : Loading) (line : Nat) (q : Qubo Binary64) (i j : Nat)
    (value : Binary64) : place s line q i j value = settled (s.place line q i j value) := by
  unfold place Loading.place
  simp only [List.forM]
  by_cases row : i < q.size
  · rw [checkIndex_of_lt row, dif_pos row]
    by_cases column : j < q.size
    · rw [checkIndex_of_lt column, dif_pos column]
      unfold count
      by_cases same : i = j
      · have inside : i ≤ j ∧ j < q.size := ⟨Nat.le_of_eq same, column⟩
        have written : q.set i j value = .ok (q.put ⟨i, row⟩ ⟨j, column⟩ value) := dif_pos inside
        rw [if_pos same, if_pos same, written]
        rfl
      · rw [if_neg same, if_neg same]
        by_cases behind : j < i
        · rw [if_pos behind, if_pos behind]
          rfl
        · have inside : i ≤ j ∧ j < q.size := ⟨Nat.not_lt.mp behind, column⟩
          have written : q.set i j value = .ok (q.put ⟨i, row⟩ ⟨j, column⟩ value) := dif_pos inside
          rw [if_neg behind, if_neg behind, written]
          rfl
    · rw [checkIndex_of_not_lt column, dif_neg column]
      rfl
  · rw [checkIndex_of_not_lt row, dif_neg row]
    rfl

theorem entry_eq_settled (s : Loading) (line : Nat) (tokens : List (List Char)) :
    entry s line tokens = settled (s.entry line tokens) := by
  unfold entry Loading.entry
  cases s.qubo with
  | none => rfl
  | some q =>
      match tokens with
      | [] | [_] | [_, _] => rfl
      | row :: column :: digits :: rest =>
          change (if (row :: column :: digits :: rest).length < 3 then _ else _) = _
          rw [if_neg (by simp), number_eq_settled rfl, number_eq_settled rfl, number_eq_settled rfl]
          exact settled_bind fun i => settled_bind fun j => settled_bind fun value =>
            place_eq_settled s line q i j value

theorem readTokens_eq_settled (s : Loading) (line : Nat) (tokens : List (List Char)) :
    readTokens s line tokens = settled (s.readTokens line tokens) := by
  unfold readTokens
  cases tokens with
  | nil => rfl
  | cons first rest =>
      by_cases comment : first = ['c']
      · rw [comment]
        rfl
      · rw [if_neg (by simp [comment])]
        by_cases heads : first = ['p']
        · rw [heads, List.head?_cons, if_pos rfl]
          exact header_eq_settled s line (['p'] :: rest)
        · rw [if_neg (by simp [heads]), Loading.readTokens_of_entry comment heads]
          exact entry_eq_settled s line (first :: rest)

theorem readLine_eq_settled (s : Loading) (line : Nat) (bytes : List UInt8) :
    readLine s line bytes = settled (s.readLine line bytes) := by
  unfold readLine Loading.readLine
  cases Text.decode? bytes with
  | none => rfl
  | some text => exact readTokens_eq_settled s line (Text.tokens text)

theorem readLines_eq_settled (lines : List (List UInt8)) :
    readLines lines = settled (Loading.readLines lines) := by
  have steps : ∀ s (place : List UInt8 × Nat),
      readLine s place.2 place.1 = settled (s.readLine place.2 place.1) :=
    fun s place => readLine_eq_settled s place.2 place.1
  exact foldlM_eq_settled steps (lines.zipIdx 1) Loading.start

/-- No fault breaks a load off: every check of the program holds on whatever the text is. -/
theorem load_eq_settled (bytes : List UInt8) : load bytes = settled (BinaryQuadratic.load bytes) := by
  unfold load
  rw [readLines_eq_settled]
  exact settled_bind fun s => rfl

end Indexed

end BinaryQuadratic
