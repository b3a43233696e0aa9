import Mathlib.Data.List.Forall2
import BinaryQuadratic.Loader

set_option autoImplicit false

/-! Which texts are problem files, and what matrix they hold. Every line is blank, a comment, a header
or an entry by its tokens alone; whether an entry is in its place depends on the latest header
before it, and the counts depend on all lines and the last header. -/

namespace BinaryQuadratic

/-- What a header declares. -/
structure Header where
  size : Nat
  nodes : Nat
  couplers : Nat
  allocated : size < refusedSize

/-- What a line may tell, whatever stands before it. -/
inductive Line
  | silent
  | header (declared : Header)
  | entry (i j : Nat) (value : Binary64)

namespace Line

/-- The tokens of a line and what they tell. -/
inductive Tells : List (List Char) → Line → Prop
  | blank : Tells [] silent
  | comment (rest : List (List Char)) : Tells (['c'] :: rest) silent
  | header {kind topology size nodes couplers : List Char} {rest : List (List Char)}
      {declared : Header}
      (size_eq : Text.natural? size = some declared.size)
      (nodes_eq : Text.natural? nodes = some declared.nodes)
      (couplers_eq : Text.natural? couplers = some declared.couplers) :
      Tells (['p'] :: kind :: topology :: size :: nodes :: couplers :: rest) (.header declared)
  | entry {row column number : List Char} {rest : List (List Char)} {i j : Nat} {value : Binary64}
      (no_comment : row ≠ ['c'])
      (no_header : row ≠ ['p'])
      (row_eq : Text.natural? row = some i)
      (column_eq : Text.natural? column = some j)
      (value_eq : Text.decimal? number = some value) :
      Tells (row :: column :: number :: rest) (.entry i j value)

def Reads (bytes : List UInt8) (line : Line) : Prop :=
  ∃ text, Text.decode? bytes = some text ∧ Tells (Text.tokens text) line

def header? : Line → Option Header
  | .header declared => some declared
  | _ => none

def entry? : Line → Option (Nat × Nat × Binary64)
  | .entry i j value => some (i, j, value)
  | _ => none

def entries (lines : List Line) : List (Nat × Nat × Binary64) := lines.filterMap entry?

/-- The number of entries in the lines whose row and column are related by `counts`. -/
def entryCount (counts : Nat → Nat → Prop) [DecidableRel counts] (lines : List Line) : Nat :=
  (entries lines).countP fun (i, j, _) => counts i j

/-- The last header declares `declared`, and the lines `after` follow it. -/
def Headed (lines : List Line) (declared : Header) (after : List Line) : Prop :=
  ∃ before, lines = before ++ .header declared :: after ∧ ∀ line ∈ after, line.header? = none

/-- An entry after these lines is on or above the diagonal of the matrix that the last of their
headers declares. -/
def Admits (lines : List Line) (i j : Nat) : Prop :=
  i ≤ j ∧ ∃ declared after, Headed lines declared after ∧ j < declared.size

/-- Every entry is one that the lines before it admit. -/
def Placed (lines : List Line) : Prop :=
  ∀ before i j value after, lines = before ++ .entry i j value :: after → Admits before i j

section Counts

variable (lines : List Line)

theorem entries_append_of_none {line : Line} (other : line.entry? = none) :
    entries (lines ++ [line]) = entries lines := by
  unfold entries
  rw [List.filterMap_append, List.filterMap_cons_none other, List.filterMap_nil, List.append_nil]

theorem entries_append_entry (i j : Nat) (value : Binary64) :
    entries (lines ++ [.entry i j value]) = entries lines ++ [(i, j, value)] := by
  unfold entries
  rw [List.filterMap_append]
  rfl

variable (counts : Nat → Nat → Prop) [DecidableRel counts]

theorem entryCount_append_of_none {line : Line} (other : line.entry? = none) :
    entryCount counts (lines ++ [line]) = entryCount counts lines := by
  unfold entryCount
  rw [entries_append_of_none lines other]

theorem entryCount_append_entry (i j : Nat) (value : Binary64) :
    entryCount counts (lines ++ [.entry i j value]) =
      if counts i j then entryCount counts lines + 1 else entryCount counts lines := by
  unfold entryCount
  rw [entries_append_entry, List.countP_append, List.countP_singleton]
  by_cases counted : counts i j
  · simp [counted]
  · simp [counted]

end Counts

namespace Headed

variable {lines after : List Line} {declared : Header}

theorem of_header (lines : List Line) (declared : Header) :
    Headed (lines ++ [.header declared]) declared [] := by
  refine ⟨lines, rfl, ?_⟩
  intro line member
  cases member

theorem append (headed : Headed lines declared after) {line : Line} (other : line.header? = none) :
    Headed (lines ++ [line]) declared (after ++ [line]) := by
  obtain ⟨before, rfl, none_after⟩ := headed
  refine ⟨before, by rw [List.append_assoc, List.cons_append], ?_⟩
  intro later member
  rcases List.mem_append.mp member with earlier | last
  · exact none_after later earlier
  · rw [List.mem_singleton.mp last]
    exact other

private theorem eq_of_append_eq {between rest : List Line} {first last : Header}
    (none_after : ∀ line ∈ rest, line.header? = none)
    (same : .header first :: rest = between ++ .header last :: after) :
    first = last ∧ rest = after := by
  cases between with
  | nil =>
      obtain ⟨headers, rests⟩ := List.cons.inj same
      exact ⟨Line.header.inj headers, rests⟩
  | cons line between =>
      obtain ⟨_, rests⟩ := List.cons.inj same
      have member : Line.header last ∈ rest := by
        rw [rests]
        exact List.mem_append_right between List.mem_cons_self
      have impossible := none_after _ member
      cases impossible

theorem unique {last : Header} {rest : List Line} (headed : Headed lines declared after)
    (again : Headed lines last rest) : declared = last ∧ after = rest := by
  obtain ⟨before, rfl, none_after⟩ := headed
  obtain ⟨before', same, none_rest⟩ := again
  -- The later of the two headers would stand among the lines after the other one.
  rcases List.append_eq_append_iff.mp same with ⟨between, _, tails⟩ | ⟨between, _, tails⟩
  · exact eq_of_append_eq none_after tails
  · obtain ⟨headers, rests⟩ := eq_of_append_eq none_rest tails
    exact ⟨headers.symm, rests.symm⟩

end Headed

theorem Placed.append {lines : List Line} (placed : Placed lines) {line : Line}
    (admitted : ∀ i j value, line = .entry i j value → Admits lines i j) :
    Placed (lines ++ [line]) := by
  intro before i j value after split
  -- The entry is the line at the end, or one of those before it.
  rcases List.eq_nil_or_concat after with rfl | ⟨later, last, rfl⟩
  · obtain ⟨rfl, singles⟩ := List.append_inj' split rfl
    exact admitted i j value (List.cons.inj singles).1
  · rw [List.concat_eq_append, ← List.cons_append, ← List.append_assoc] at split
    obtain ⟨earlier, _⟩ := List.append_inj' split rfl
    exact placed before i j value later earlier

end Line

namespace Qubo

variable {α : Type} {q next : Qubo α} {i j size : Nat} {value : α}

theorem set_eq_ok_iff :
    q.set i j value = .ok next ↔ ∃ inside : i ≤ j ∧ j < q.size,
      next = q.put ⟨i, Nat.lt_of_le_of_lt inside.1 inside.2⟩ ⟨j, inside.2⟩ value := by
  unfold set
  by_cases inside : i ≤ j ∧ j < q.size
  · rw [dif_pos inside, Except.ok.injEq]
    constructor
    · intro same
      exact ⟨inside, same.symm⟩
    · rintro ⟨_, same⟩
      exact same.symm
  · rw [dif_neg inside]
    constructor
    · intro impossible
      cases impossible
    · rintro ⟨other, _⟩
      exact absurd other inside

theorem size_of_set (sets : q.set i j value = .ok next) : next.size = q.size := by
  obtain ⟨_, rfl⟩ := set_eq_ok_iff.mp sets
  rfl

variable [Coefficient α]

theorem ofEntries_nil (allocated : size < refusedSize) :
    ofEntries size ([] : List (Nat × Nat × α)) = .ok (zero size) := by
  unfold ofEntries create
  rw [if_pos allocated]
  rfl

theorem ofEntries_append {entries : List (Nat × Nat × α)}
    (holds : ofEntries size entries = .ok q) (sets : q.set i j value = .ok next) :
    ofEntries size (entries ++ [(i, j, value)]) = .ok next := by
  unfold ofEntries at holds ⊢
  cases created : (create size : Except Fault (Qubo α)) with
  | error fault =>
      rw [created] at holds
      cases holds
  | ok empty =>
      rw [created] at holds
      change entries.foldlM _ empty = Except.ok q at holds
      change (entries ++ [(i, j, value)]).foldlM _ empty = Except.ok next
      rw [List.foldlM_append, holds]
      change (q.set i j value >>= fun q => pure q) = Except.ok next
      rw [sets]
      rfl

end Qubo

/-! ### One line -/

namespace Loading

variable {s s' : Loading} {number : Nat}

def placed (s : Loading) (i j : Nat) (next : Qubo Binary64) : Loading :=
  { s with
    qubo := some next
    nodes := if i = j then s.nodes + 1 else s.nodes
    couplers := if i < j then s.couplers + 1 else s.couplers }

/-- A line in its place, from the state before it to the state after it. -/
inductive Takes (s : Loading) : Line → Loading → Prop
  | silent : Takes s .silent s
  | header (declared : Header) :
      Takes s (.header declared)
        { s with
          qubo := some (Qubo.zero declared.size)
          declaredNodes := declared.nodes
          declaredCouplers := declared.couplers }
  | entry {q next : Qubo Binary64} {i j : Nat} {value : Binary64}
      (held : s.qubo = some q)
      (sets : q.set i j value = .ok next) :
      Takes s (.entry i j value) (s.placed i j next)

theorem number?_eq_ok_iff {β : Type} {read : List Char → Option β} {token : List Char} {value : β} :
    number? number read token = .ok value ↔ read token = some value := by
  unfold number?
  cases read token with
  | none => simp
  | some found => simp

theorem bind_eq_ok_iff {β δ : Type} {action : Except LoadError β} {next : β → Except LoadError δ}
    {value : δ} :
    (action >>= next) = .ok value ↔ ∃ part, action = .ok part ∧ next part = .ok value := by
  cases action with
  | error failure => simp [bind, Except.bind]
  | ok part => simp [bind, Except.bind]

theorem place_eq_ok_iff {q : Qubo Binary64} {i j : Nat} {value : Binary64} :
    s.place number q i j value = .ok s' ↔
      ∃ next, q.set i j value = .ok next ∧ s' = s.placed i j next := by
  unfold place
  by_cases inside : i ≤ j ∧ j < q.size
  · have row : i < q.size := Nat.lt_of_le_of_lt inside.1 inside.2
    have ordered : ¬j < i := Nat.not_lt.mpr inside.1
    rw [dif_pos row, dif_pos inside.2]
    have sets : q.set i j value = .ok (q.put ⟨i, row⟩ ⟨j, inside.2⟩ value) := dif_pos inside
    rw [sets]
    by_cases same : i = j
    · simp [same, placed, eq_comm]
    · have before : i < j := Nat.lt_of_le_of_ne inside.1 same
      simp [same, ordered, before, placed, eq_comm]
  · have fails : ∀ next, q.set i j value ≠ .ok next := by
      intro next sets
      obtain ⟨found, _⟩ := Qubo.set_eq_ok_iff.mp sets
      exact inside found
    constructor
    · intro places
      by_cases row : i < q.size
      · rw [dif_pos row] at places
        by_cases column : j < q.size
        · have disordered : ¬i ≤ j := fun ordered => inside ⟨ordered, column⟩
          have different : i ≠ j := fun same => disordered (Nat.le_of_eq same)
          rw [dif_pos column, if_neg different, if_pos (Nat.not_le.mp disordered)] at places
          cases places
        · rw [dif_neg column] at places
          cases places
      · rw [dif_neg row] at places
        cases places
    · rintro ⟨next, sets, _⟩
      exact absurd sets (fails next)

theorem header_eq_ok_iff {rest : List (List Char)} :
    s.header number (['p'] :: rest) = .ok s' ↔
      ∃ line, Line.Tells (['p'] :: rest) line ∧ s.Takes line s' := by
  constructor
  · intro reads
    unfold header at reads
    split at reads
    · rename_i same
      obtain ⟨rfl, rfl⟩ := List.cons.inj same
      obtain ⟨size, size_eq, reads⟩ := bind_eq_ok_iff.mp reads
      obtain ⟨nodes, nodes_eq, reads⟩ := bind_eq_ok_iff.mp reads
      obtain ⟨couplers, couplers_eq, reads⟩ := bind_eq_ok_iff.mp reads
      by_cases refused : refusedSize ≤ size
      · rw [if_pos refused] at reads
        cases reads
      · rw [if_neg refused] at reads
        cases reads
        let declared : Header := ⟨size, nodes, couplers, Nat.not_le.mp refused⟩
        refine ⟨.header declared, .header ?_ ?_ ?_, .header declared⟩
        · exact number?_eq_ok_iff.mp size_eq
        · exact number?_eq_ok_iff.mp nodes_eq
        · exact number?_eq_ok_iff.mp couplers_eq
    · cases reads
  · rintro ⟨line, told, takes⟩
    cases told with
    | @header _ _ _ _ _ _ declared size_eq nodes_eq couplers_eq =>
        cases takes
        have allocated : ¬refusedSize ≤ declared.size := Nat.not_le.mpr declared.allocated
        simp only [header, number?, size_eq, nodes_eq, couplers_eq, bind, Except.bind,
          if_neg allocated]
        rfl
    | entry no_comment no_header => exact absurd rfl no_header

theorem entry_eq_ok_iff {first : List Char} {rest : List (List Char)} (no_comment : first ≠ ['c'])
    (no_header : first ≠ ['p']) :
    s.entry number (first :: rest) = .ok s' ↔
      ∃ line, Line.Tells (first :: rest) line ∧ s.Takes line s' := by
  constructor
  · intro reads
    unfold entry at reads
    split at reads
    · cases reads
    · rename_i q row column digits more held same
      obtain ⟨rfl, rfl⟩ := List.cons.inj same
      obtain ⟨i, row_eq, reads⟩ := bind_eq_ok_iff.mp reads
      obtain ⟨j, column_eq, reads⟩ := bind_eq_ok_iff.mp reads
      obtain ⟨value, value_eq, reads⟩ := bind_eq_ok_iff.mp reads
      obtain ⟨next, sets, rfl⟩ := place_eq_ok_iff.mp reads
      refine ⟨.entry i j value, .entry no_comment no_header ?_ ?_ ?_, .entry held sets⟩
      · exact number?_eq_ok_iff.mp row_eq
      · exact number?_eq_ok_iff.mp column_eq
      · exact number?_eq_ok_iff.mp value_eq
    · cases reads
  · rintro ⟨line, told, takes⟩
    cases told with
    | comment rest => exact absurd rfl no_comment
    | header => exact absurd rfl no_header
    | entry _ _ row_eq column_eq value_eq =>
        cases takes with
        | entry held sets =>
            simp only [entry, number?, held, row_eq, column_eq, value_eq, bind, Except.bind]
            exact place_eq_ok_iff.mpr ⟨_, sets, rfl⟩

theorem readTokens_of_entry {first : List Char}
    {rest : List (List Char)} (no_comment : first ≠ ['c']) (no_header : first ≠ ['p']) :
    s.readTokens number (first :: rest) = s.entry number (first :: rest) := by
  unfold readTokens
  split
  · contradiction
  · rename_i same
    exact absurd (List.cons.inj same).1 no_comment
  · rename_i same
    exact absurd (List.cons.inj same).1 no_header
  · rfl

/-- A line goes through exactly when it reads as something that is in place there. -/
theorem readLine_eq_ok_iff {bytes : List UInt8} :
    s.readLine number bytes = .ok s' ↔ ∃ line, Line.Reads bytes line ∧ s.Takes line s' := by
  have by_tokens : ∀ tokens, s.readTokens number tokens = .ok s' ↔
      ∃ line, Line.Tells tokens line ∧ s.Takes line s' := by
    intro tokens
    unfold readTokens
    split
    · constructor
      · intro same
        cases same
        exact ⟨.silent, .blank, .silent⟩
      · rintro ⟨line, told, takes⟩
        cases told
        cases takes
        rfl
    · constructor
      · intro same
        cases same
        exact ⟨.silent, .comment _, .silent⟩
      · rintro ⟨line, told, takes⟩
        cases told with
        | comment rest =>
            cases takes
            rfl
        | entry no_comment => exact absurd rfl no_comment
    · exact header_eq_ok_iff
    · rename_i some_token no_comment no_header
      cases tokens with
      | nil => exact absurd rfl some_token
      | cons first rest =>
          apply entry_eq_ok_iff
          · rintro rfl
            exact no_comment rest rfl
          · rintro rfl
            exact no_header rest rfl
  unfold readLine
  cases decoded : Text.decode? bytes with
  | none => simp [Line.Reads, decoded]
  | some text =>
      rw [by_tokens]
      simp [Line.Reads, decoded]

/-! ### All lines -/

/-- The state has the matrix and the declaration of a header and of the lines after it. -/
structure Keeps (s : Loading) (declared : Header) (after : List Line) (q : Qubo Binary64) :
    Prop where
  qubo_eq : s.qubo = some q
  nodes_eq : s.declaredNodes = declared.nodes
  couplers_eq : s.declaredCouplers = declared.couplers
  size_eq : q.size = declared.size
  filled : Qubo.ofEntries declared.size (Line.entries after) = .ok q

/-- What holds after the lines. -/
structure Follows (s : Loading) (lines : List Line) : Prop where
  in_place : Line.Placed lines
  nodes_eq : s.nodes = Line.entryCount (· = ·) lines
  couplers_eq : s.couplers = Line.entryCount (· < ·) lines
  matrix : (s.qubo = none ∧ ∀ line ∈ lines, line.header? = none) ∨
    ∃ declared after q, Line.Headed lines declared after ∧ s.Keeps declared after q

namespace Follows

variable {lines : List Line} {line : Line}

theorem start : Follows start [] := by
  refine ⟨?_, rfl, rfl, .inl ⟨rfl, ?_⟩⟩
  · intro before i j value after split
    exact absurd split.symm (List.append_ne_nil_of_right_ne_nil before (List.cons_ne_nil _ after))
  · intro line member
    cases member

theorem keeps_of_headed (follows : Follows s lines) {declared : Header} {after : List Line}
    (headed : Line.Headed lines declared after) : ∃ q, s.Keeps declared after q := by
  rcases follows.matrix with ⟨_, headless⟩ | ⟨last, rest, q, headed', keeps⟩
  · obtain ⟨before, rfl, _⟩ := headed
    have impossible := headless (.header declared) (List.mem_append_right before List.mem_cons_self)
    cases impossible
  · obtain ⟨rfl, rfl⟩ := headed.unique headed'
    exact ⟨q, keeps⟩

theorem after_silent (follows : Follows s lines) : Follows s (lines ++ [.silent]) := by
  obtain ⟨in_place, nodes_eq, couplers_eq, matrix⟩ := follows
  refine ⟨in_place.append ?_, ?_, ?_, ?_⟩
  · intro i j value same
    cases same
  · rw [nodes_eq, Line.entryCount_append_of_none lines _ rfl]
  · rw [couplers_eq, Line.entryCount_append_of_none lines _ rfl]
  · rcases matrix with ⟨none_yet, headless⟩ | ⟨declared, after, q, headed, keeps⟩
    · refine .inl ⟨none_yet, ?_⟩
      intro line member
      rcases List.mem_append.mp member with earlier | last
      · exact headless line earlier
      · rw [List.mem_singleton.mp last]
        rfl
    · obtain ⟨qubo_eq, declared_nodes, declared_couplers, size_eq, filled⟩ := keeps
      have same : Line.entries (after ++ [.silent]) = Line.entries after :=
        Line.entries_append_of_none after rfl
      rw [← same] at filled
      exact .inr ⟨declared, _, q, headed.append rfl,
        ⟨qubo_eq, declared_nodes, declared_couplers, size_eq, filled⟩⟩

theorem after_header (follows : Follows s lines) (declared : Header) :
    Follows
      { s with
        qubo := some (Qubo.zero declared.size)
        declaredNodes := declared.nodes
        declaredCouplers := declared.couplers }
      (lines ++ [.header declared]) := by
  refine ⟨follows.in_place.append ?_, ?_, ?_, .inr ?_⟩
  · intro i j value same
    cases same
  · rw [Line.entryCount_append_of_none lines _ rfl]
    exact follows.nodes_eq
  · rw [Line.entryCount_append_of_none lines _ rfl]
    exact follows.couplers_eq
  · exact ⟨declared, [], Qubo.zero declared.size, .of_header lines declared,
      ⟨rfl, rfl, rfl, rfl, Qubo.ofEntries_nil declared.allocated⟩⟩

theorem after_entry (follows : Follows s lines) {q next : Qubo Binary64} {i j : Nat}
    {value : Binary64} (held : s.qubo = some q) (sets : q.set i j value = .ok next) :
    Follows (s.placed i j next) (lines ++ [.entry i j value]) := by
  obtain ⟨in_place, nodes_eq, couplers_eq, matrix⟩ := follows
  rcases matrix with ⟨none_yet, _⟩ | ⟨declared, after, q', headed, keeps⟩
  · rw [none_yet] at held
    cases held
  · obtain ⟨qubo_eq, declared_nodes, declared_couplers, size_eq, filled⟩ := keeps
    cases held.symm.trans qubo_eq
    obtain ⟨⟨ordered, inside⟩, _⟩ := Qubo.set_eq_ok_iff.mp sets
    rw [size_eq] at inside
    refine ⟨in_place.append ?_, ?_, ?_, .inr ⟨declared, _, next, headed.append rfl, ?_⟩⟩
    · intro i' j' value' same
      cases same
      exact ⟨ordered, declared, after, headed, inside⟩
    · rw [Line.entryCount_append_entry, ← nodes_eq]
      rfl
    · rw [Line.entryCount_append_entry, ← couplers_eq]
      rfl
    · have filled_next := Qubo.ofEntries_append filled sets
      rw [← Line.entries_append_entry] at filled_next
      exact ⟨rfl, declared_nodes, declared_couplers, (Qubo.size_of_set sets).trans size_eq,
        filled_next⟩

theorem takes (follows : Follows s lines) (taken : s.Takes line s') :
    Follows s' (lines ++ [line]) := by
  cases taken with
  | silent => exact follows.after_silent
  | header declared => exact follows.after_header declared
  | entry held sets => exact follows.after_entry held sets

theorem exists_takes (follows : Follows s lines)
    (admitted : ∀ i j value, line = .entry i j value → Line.Admits lines i j) :
    ∃ s', s.Takes line s' := by
  cases line with
  | silent => exact ⟨s, .silent⟩
  | header declared => exact ⟨_, .header declared⟩
  | entry i j value =>
      obtain ⟨ordered, declared, after, headed, inside⟩ := admitted i j value rfl
      obtain ⟨q, keeps⟩ := follows.keeps_of_headed headed
      rw [← keeps.size_eq] at inside
      exact ⟨_, .entry keeps.qubo_eq (Qubo.set_eq_ok_iff.mpr ⟨⟨ordered, inside⟩, rfl⟩)⟩

variable {texts : List (List UInt8)} {before : List Line} {last : Loading}

theorem exists_lines_of_foldlM (follows : Follows s before)
    (ends : (texts.zipIdx number).foldlM (fun s (bytes, number) => s.readLine number bytes) s =
      .ok last) :
    ∃ lines, List.Forall₂ Line.Reads texts lines ∧ Follows last (before ++ lines) := by
  induction texts generalizing s before number with
  | nil =>
      cases ends
      refine ⟨[], .nil, ?_⟩
      rw [List.append_nil]
      exact follows
  | cons bytes rest ih =>
      rw [List.zipIdx_cons, List.foldlM_cons] at ends
      obtain ⟨next, reads, ends⟩ := bind_eq_ok_iff.mp ends
      obtain ⟨line, told, taken⟩ := readLine_eq_ok_iff.mp reads
      obtain ⟨lines, others, follows_last⟩ := ih (follows.takes taken) ends
      refine ⟨line :: lines, .cons told others, ?_⟩
      rw [List.append_cons]
      exact follows_last

theorem exists_foldlM_of_lines {lines : List Line} (number : Nat)
    (reads : List.Forall₂ Line.Reads texts lines) (follows : Follows s before)
    (in_place : Line.Placed (before ++ lines)) :
    ∃ last, (texts.zipIdx number).foldlM (fun s (bytes, number) => s.readLine number bytes) s =
      .ok last ∧ Follows last (before ++ lines) := by
  induction reads generalizing s before number with
  | nil =>
      refine ⟨s, rfl, ?_⟩
      rw [List.append_nil]
      exact follows
  | @cons bytes line rest lines told others ih =>
      have admitted : ∀ i j value, line = .entry i j value → Line.Admits before i j := by
        rintro i j value rfl
        exact in_place before i j value lines rfl
      obtain ⟨next, taken⟩ := follows.exists_takes admitted
      rw [List.append_cons] at in_place
      obtain ⟨last, ends, follows_last⟩ := ih (number + 1) (follows.takes taken) in_place
      refine ⟨last, ?_, ?_⟩
      · rw [List.zipIdx_cons, List.foldlM_cons]
        exact bind_eq_ok_iff.mpr ⟨next, readLine_eq_ok_iff.mpr ⟨line, told, taken⟩, ends⟩
      · rw [List.append_cons]
        exact follows_last

end Follows

end Loading

/-- The lines are those of the text, all in their places, and the last header declares as many nodes
and couplers as there are entries for in all of them. -/
structure ProblemFile (text : List UInt8) (lines : List Line) (declared : Header)
    (after : List Line) : Prop where
  reads : List.Forall₂ Line.Reads (Text.lines text) lines
  in_place : Line.Placed lines
  headed : Line.Headed lines declared after
  nodes_eq : Line.entryCount (· = ·) lines = declared.nodes
  couplers_eq : Line.entryCount (· < ·) lines = declared.couplers

theorem Loading.Follows.finish_eq_ok_iff {s : Loading} {lines : List Line}
    (follows : s.Follows lines) {q : Qubo Binary64} :
    s.finish = .ok q ↔ ∃ declared after, Line.Headed lines declared after ∧
      Line.entryCount (· = ·) lines = declared.nodes ∧ Line.entryCount (· < ·) lines = declared.couplers ∧
      Qubo.ofEntries declared.size (Line.entries after) = .ok q := by
  unfold finish
  constructor
  · intro ends
    rcases follows.matrix with ⟨none_yet, _⟩ | ⟨declared, after, q', headed, keeps⟩
    · rw [none_yet] at ends
      cases ends
    · rw [keeps.qubo_eq, keeps.nodes_eq, keeps.couplers_eq, follows.nodes_eq,
        follows.couplers_eq] at ends
      by_cases nodes : Line.entryCount (· = ·) lines = declared.nodes
      · by_cases couplers : Line.entryCount (· < ·) lines = declared.couplers
        · simp only [nodes, couplers, ne_eq, not_true_eq_false, if_false] at ends
          cases ends
          exact ⟨declared, after, headed, nodes, couplers, keeps.filled⟩
        · simp only [nodes, couplers, ne_eq, not_true_eq_false, not_false_eq_true, if_false,
            if_true] at ends
          cases ends
      · simp only [nodes, ne_eq, not_false_eq_true, if_true] at ends
        cases ends
  · rintro ⟨declared, after, headed, nodes, couplers, filled⟩
    obtain ⟨q', keeps⟩ := follows.keeps_of_headed headed
    cases keeps.filled.symm.trans filled
    rw [keeps.qubo_eq, keeps.nodes_eq, keeps.couplers_eq, follows.nodes_eq, follows.couplers_eq,
      nodes, couplers]
    simp only [ne_eq, not_true_eq_false, if_false]

/-- A problem file fills a matrix with the entries after its last header. -/
theorem ProblemFile.exists_load_eq {text : List UInt8} {lines : List Line} {declared : Header}
    {after : List Line} (file : ProblemFile text lines declared after) :
    ∃ q, load text = .ok q ∧ Qubo.ofEntries declared.size (Line.entries after) = .ok q := by
  obtain ⟨reads, in_place, headed, nodes_eq, couplers_eq⟩ := file
  obtain ⟨last, ends, follows⟩ :=
    Loading.Follows.exists_foldlM_of_lines 1 reads .start in_place
  obtain ⟨q, keeps⟩ := follows.keeps_of_headed headed
  refine ⟨q, ?_, keeps.filled⟩
  have finishes := follows.finish_eq_ok_iff.mpr
    ⟨declared, after, headed, nodes_eq, couplers_eq, keeps.filled⟩
  exact Loading.bind_eq_ok_iff.mpr ⟨last, ends, finishes⟩

theorem exists_problemFile_of_load {text : List UInt8} {q : Qubo Binary64}
    (loads : load text = .ok q) :
    ∃ lines declared after, ProblemFile text lines declared after := by
  obtain ⟨last, ends, finishes⟩ := Loading.bind_eq_ok_iff.mp loads
  obtain ⟨lines, reads, follows⟩ := Loading.Follows.start.exists_lines_of_foldlM ends
  obtain ⟨declared, after, headed, nodes_eq, couplers_eq, _⟩ := follows.finish_eq_ok_iff.mp finishes
  exact ⟨lines, declared, after, reads, follows.in_place, headed, nodes_eq, couplers_eq⟩

/-- A text loads exactly when it is a problem file, and the matrix is then that of the entries after
the last header, later ones for a cell in the place of earlier ones. -/
theorem load_eq_ok_iff (text : List UInt8) :
    ((∃ q, load text = .ok q) ↔
      ∃ lines declared after, ProblemFile text lines declared after) ∧
    ∀ q, load text = .ok q → ∀ lines declared after, ProblemFile text lines declared after →
      Qubo.ofEntries declared.size (Line.entries after) = .ok q := by
  constructor
  · constructor
    · rintro ⟨q, loads⟩
      exact exists_problemFile_of_load loads
    · rintro ⟨lines, declared, after, file⟩
      obtain ⟨q, loads, _⟩ := file.exists_load_eq
      exact ⟨q, loads⟩
  · intro q loads lines declared after file
    obtain ⟨q', loads', filled⟩ := file.exists_load_eq
    cases loads.symm.trans loads'
    exact filled

/-- The second header starts a new matrix, but the node before it still counts. -/
example :
    let text := "p qubo 0 1 1 0\n0 0 1\nc\np qubo 0 2 2 1\n0 0 1.5\n0 1 -2"
    ((load text.toUTF8.toList).toOption.map fun q => (q.size, q.cells.toList)) =
      some (2, [.ofFraction false 3 2, -.ofNat 2, 0, 0]) := by
  decide +kernel

end BinaryQuadratic
