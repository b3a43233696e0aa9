import Mathlib.Data.Set.List
import Mathlib.Logic.Relation
import BinaryQuadratic.Proofs.CellHistory
import BinaryQuadratic.Proofs.DeclaredCounts
import BinaryQuadratic.Proofs.Encoding
import BinaryQuadratic.Proofs.FaultyLines
import BinaryQuadratic.Proofs.Spacing

set_option autoImplicit false

/-! Texts that are laid out in another way. A line tells the same with other blanks, with another line
end and with more words behind it; a blank line or a comment tells nothing; and entries for different
cells, which no header follows, can be read in any order. -/

namespace BinaryQuadratic

/-- A line of a text, less the line feed that ends it. -/
structure TextLine where
  text : String
  unbroken : '\n' ∉ text.toList

namespace TextLine

def chars (line : TextLine) : List Char := line.text.toList

/-- The text that has these lines. The last of them is not ended: it is empty after a line feed. -/
def joined (lines : List TextLine) : List UInt8 :=
  Text.bytes ("\n".intercalate (lines.map (·.text)))

/-- A blank line or a comment. -/
def Silent (line : TextLine) : Prop :=
  Text.Spaced [] line.chars ∨ ∃ rest, Text.Spaced (['c'] :: rest) line.chars

def Heads (line : TextLine) : Prop := ∃ rest, Text.Spaced (['p'] :: rest) line.chars

/-- The cell that an entry in this line is for. -/
def place? (line : TextLine) : Option (Nat × Nat) :=
  match Text.tokens line.chars with
  | row :: column :: _ => do return (← Text.natural? row, ← Text.natural? column)
  | _ => none

/-- A line with other blanks around its words, with or without a carriage return before its line feed,
or with more words behind its last one. -/
inductive Rewritten (line line' : TextLine) : Prop
  | respaced {words : List (List Char)} (spaced : Text.Spaced words line.chars)
      (spaced' : Text.Spaced words line'.chars)
  | returned (ends : line'.text = line.text ++ "\r")
  | unreturned (ends : line.text = line'.text ++ "\r")
  | extended {first : List Char} {words more : List (List Char)}
      (spaced : Text.Spaced (first :: words) line.chars)
      (spaced' : Text.Spaced (first :: words ++ more) line'.chars)

/-- One change of the layout. Lines that no header follows may be permuted, but those for one cell keep
their order. -/
inductive Edit : List TextLine → List TextLine → Prop
  | insert (before : List TextLine) {line : TextLine} (silent : line.Silent)
      (after : List TextLine) : Edit (before ++ after) (before ++ line :: after)
  | delete (before : List TextLine) {line : TextLine} (silent : line.Silent)
      (after : List TextLine) : Edit (before ++ line :: after) (before ++ after)
  | rewrite (before : List TextLine) {line line' : TextLine} (rewritten : line.Rewritten line')
      (after : List TextLine) : Edit (before ++ line :: after) (before ++ line' :: after)
  | permute (before : List TextLine) {after after' : List TextLine}
      (headless : ∀ line ∈ after, ¬line.Heads) (perm : after'.Perm after)
      (ordered : ∀ place, after'.filter (·.place? = some place) =
        after.filter (·.place? = some place)) :
      Edit (before ++ after) (before ++ after')

/-! ### What a line tells -/

def Tells (line : TextLine) (told : Line) : Prop := Line.Tells (Text.tokens line.chars) told

variable {line line' : TextLine} {told : Line}

theorem tells_of_silent (silent : line.Silent) : line.Tells .silent := by
  unfold Tells
  rcases silent with blank | ⟨rest, comment⟩
  · rw [blank.tokens_eq]
    exact .blank
  · rw [comment.tokens_eq]
    exact .comment rest

theorem Tells.header?_eq (tells : line.Tells told) (headless : ¬line.Heads) :
    told.header? = none := by
  unfold Tells at tells
  cases words : Text.tokens line.chars with
  | nil =>
      rw [words] at tells
      cases tells
      rfl
  | cons first rest =>
      have spaced : Text.Spaced (first :: rest) line.chars := Text.spaced_iff.mpr words
      rw [words] at tells
      cases tells with
      | comment => rfl
      | header => exact absurd ⟨_, spaced⟩ headless
      | entry => rfl

theorem Tells.place?_eq {i j : Nat} {value : Binary64} (tells : line.Tells (.entry i j value)) :
    line.place? = some (i, j) := by
  unfold Tells at tells
  unfold place?
  generalize Text.tokens line.chars = words at tells
  cases tells with
  | entry _ _ row_eq column_eq _ =>
      simp only [row_eq, column_eq]
      rfl

/-- A carriage return is a blank. -/
theorem tokens_of_returned (ends : line'.text = line.text ++ "\r") :
    Text.tokens line'.chars = Text.tokens line.chars := by
  have chars_eq : line'.chars = line.chars ++ '\r' :: [] := by
    unfold chars
    rw [ends, String.toList_append]
    rfl
  have separates : Text.isBlank '\r' = true := by decide
  rw [chars_eq, Text.tokens_append_cons separates]
  exact List.append_nil _

theorem tells_of_more {first : List Char} {words : List (List Char)}
    (tells : Line.Tells (first :: words) told) (more : List (List Char)) :
    Line.Tells (first :: words ++ more) told := by
  cases tells with
  | comment => exact .comment _
  | header size_eq nodes_eq couplers_eq => exact .header size_eq nodes_eq couplers_eq
  | entry no_comment no_header row_eq column_eq value_eq =>
      exact .entry no_comment no_header row_eq column_eq value_eq

theorem Tells.rewritten (tells : line.Tells told) (rewritten : line.Rewritten line') :
    line'.Tells told := by
  unfold Tells at tells ⊢
  cases rewritten with
  | respaced spaced spaced' =>
      rw [spaced.tokens_eq] at tells
      rw [spaced'.tokens_eq]
      exact tells
  | returned ends =>
      rw [tokens_of_returned ends]
      exact tells
  | unreturned ends =>
      rw [tokens_of_returned ends] at tells
      exact tells
  | extended spaced spaced' =>
      rw [spaced.tokens_eq] at tells
      rw [spaced'.tokens_eq]
      exact tells_of_more tells _

/-- No entry for one cell stands in both lines. -/
def Apart (line line' : TextLine) : Prop :=
  ∀ place, line.place? = some place → line'.place? ≠ some place

/-- In another order that keeps the lines for one cell in theirs, the lines before the first one are
apart from it. -/
theorem exists_apart_of_order {rest lines : List TextLine} (perm : lines.Perm (line :: rest))
    (ordered : ∀ place, lines.filter (·.place? = some place) =
      (line :: rest).filter (·.place? = some place)) :
    ∃ before after, lines = before ++ line :: after ∧ ∀ other ∈ before, line.Apart other := by
  cases found : line.place? with
  | none =>
      obtain ⟨before, after, lines_eq⟩ :=
        List.append_of_mem (perm.mem_iff.mpr List.mem_cons_self)
      refine ⟨before, after, lines_eq, ?_⟩
      intro other _ place placed
      rw [found] at placed
      cases placed
  | some place =>
      have first := ordered place
      rw [List.filter_cons_of_pos (by simp [found])] at first
      obtain ⟨before, after, lines_eq, none_before, _⟩ := List.filter_eq_cons_iff.mp first
      refine ⟨before, after, lines_eq, ?_⟩
      intro other member place' placed same
      rw [found] at placed
      cases placed
      exact none_before other member (decide_eq_true same)

/-- The first line can be taken out of both orders, and the lines for one cell are still in theirs. -/
theorem filter_append_of_order {rest before after : List TextLine}
    (apart : ∀ other ∈ before, line.Apart other) {place : Nat × Nat}
    (same : (before ++ line :: after).filter (·.place? = some place) =
      (line :: rest).filter (·.place? = some place)) :
    (before ++ after).filter (·.place? = some place) = rest.filter (·.place? = some place) := by
  rw [List.filter_append] at same ⊢
  by_cases placed : line.place? = some place
  · have none_before : before.filter (·.place? = some place) = [] :=
      List.filter_eq_nil_iff.mpr fun other member there =>
        apart other member place placed (of_decide_eq_true there)
    rw [none_before, List.filter_cons_of_pos (by simp [placed]),
      List.filter_cons_of_pos (by simp [placed])] at same
    rw [none_before]
    exact (List.cons.inj same).2
  · rw [List.filter_cons_of_neg (by simp [placed]),
      List.filter_cons_of_neg (by simp [placed])] at same
    exact same

end TextLine

/-- Two entries for different cells can be set the other way round. -/
theorem Qubo.exists_set_comm {α : Type} {q next last : Qubo α} {i j k l : Nat} {first second : α}
    (apart : ¬(i = k ∧ j = l)) (sets : q.set i j first = .ok next)
    (sets' : next.set k l second = .ok last) :
    ∃ other, q.set k l second = .ok other ∧ other.set i j first = .ok last := by
  obtain ⟨inside, rfl⟩ := set_eq_ok_iff.mp sets
  obtain ⟨inside', rfl⟩ := set_eq_ok_iff.mp sets'
  refine ⟨_, set_eq_ok_iff.mpr ⟨inside', rfl⟩, ?_⟩
  exact set_eq_ok_iff.mpr ⟨inside, put_comm apart first second⟩

/-! ### Reading the lines of a text -/

namespace Loading

open TextLine (joined)

variable {s s' middle last : Loading} {line line' : TextLine} {lines before after : List TextLine}

/-- The line can be read in the state before it, and gives the one after it. -/
def Passes (s : Loading) (line : TextLine) (s' : Loading) : Prop :=
  ∃ told, line.Tells told ∧ s.Takes told s'

inductive Runs : Loading → List TextLine → Loading → Prop
  | nil (s : Loading) : Runs s [] s
  | cons {s middle last : Loading} {line : TextLine} {rest : List TextLine}
      (passes : s.Passes line middle) (others : Runs middle rest last) : Runs s (line :: rest) last

theorem readLine_bytes_eq_ok_iff {number : Nat} :
    s.readLine number (Text.bytes line.text) = .ok s' ↔ s.Passes line s' := by
  rw [readLine_eq_ok_iff]
  unfold Line.Reads
  rw [Text.decode?_bytes]
  simp only [Option.some.injEq, exists_eq_left']
  rfl

theorem foldlM_readLine_eq_ok_iff {number : Nat} :
    ((lines.map fun line => Text.bytes line.text).zipIdx number).foldlM
      (fun s (bytes, number) => s.readLine number bytes) s = .ok last ↔ Runs s lines last := by
  induction lines generalizing s number with
  | nil =>
      constructor
      · intro ends
        cases ends
        exact .nil _
      · intro runs
        cases runs
        rfl
  | cons line rest ih =>
      rw [List.map_cons, List.zipIdx_cons, List.foldlM_cons, bind_eq_ok_iff]
      constructor
      · rintro ⟨middle, reads, ends⟩
        exact .cons (readLine_bytes_eq_ok_iff.mp reads) (ih.mp ends)
      · intro runs
        cases runs with
        | cons passes others => exact ⟨_, readLine_bytes_eq_ok_iff.mpr passes, ih.mpr others⟩

theorem readLine_nil (s : Loading) (number : Nat) : s.readLine number [] = .ok s := by
  have decoded : Text.decode? [] = some [] := Text.decode?_bytes ""
  unfold readLine
  rw [decoded]
  rfl

/-- The empty piece after a final line feed tells nothing, so it can be read as a line. -/
theorem readLines_lines (bytes : List UInt8) :
    readLines (Text.lines bytes) = readLines (Text.pieces bytes) := by
  unfold Text.lines
  dsimp only
  by_cases ended : (Text.pieces bytes).getLast? = some []
  · obtain ⟨front, pieces_eq⟩ := List.getLast?_eq_some_iff.mp ended
    rw [if_pos ended, pieces_eq, List.dropLast_concat, readLines_append]
    cases readLines front with
    | error failure => rfl
    | ok s =>
        change Except.ok s = s.readLine (front.length + 1) [] >>= pure
        rw [readLine_nil]
        rfl
  · rw [if_neg ended]

theorem pieces_joined (some_line : lines ≠ []) :
    Text.pieces (joined lines) = lines.map fun line => Text.bytes line.text := by
  cases lines with
  | nil => exact absurd rfl some_line
  | cons first rest =>
      have unbroken : ∀ text ∈ (first :: rest).map (·.text), '\n' ∉ text.toList := by
        intro text member
        obtain ⟨line, _, rfl⟩ := List.mem_map.mp member
        exact line.unbroken
      have cut : Text.pieces (joined (first :: rest)) =
          ((first :: rest).map (·.text)).map Text.bytes := Text.pieces_intercalate unbroken
      rw [cut, List.map_map]
      rfl

theorem readLines_joined (lines : List TextLine) :
    readLines (Text.lines (joined lines)) =
      readLines (lines.map fun line => Text.bytes line.text) := by
  cases lines with
  | nil => rfl
  | cons first rest => rw [readLines_lines, pieces_joined (List.cons_ne_nil first rest)]

/-- A text is accepted if its lines can be read one after the other to a good end. -/
theorem load_joined_eq_ok_iff {q : Qubo Binary64} :
    load (joined lines) = .ok q ↔ ∃ last, Runs start lines last ∧ last.finish = .ok q := by
  unfold load
  rw [bind_eq_ok_iff, readLines_joined]
  unfold readLines
  simp only [foldlM_readLine_eq_ok_iff]

namespace Runs

theorem append_iff : Runs s (before ++ after) last ↔
    ∃ middle, Runs s before middle ∧ Runs middle after last := by
  induction before generalizing s with
  | nil =>
      constructor
      · intro runs
        exact ⟨s, .nil s, runs⟩
      · rintro ⟨middle, runs, others⟩
        cases runs
        exact others
  | cons line rest ih =>
      constructor
      · intro runs
        cases runs with
        | cons passes others =>
            obtain ⟨middle, runs, runs'⟩ := ih.mp others
            exact ⟨middle, .cons passes runs, runs'⟩
      · rintro ⟨middle, runs, runs'⟩
        cases runs with
        | cons passes others => exact .cons passes (ih.mpr ⟨middle, others, runs'⟩)

end Runs

theorem passes_of_silent (silent : line.Silent) : s.Passes line s :=
  ⟨.silent, TextLine.tells_of_silent silent, .silent⟩

theorem Passes.eq_of_silent (passes : s.Passes line s') (silent : line.Silent) : s' = s := by
  obtain ⟨told, tells, taken⟩ := passes
  cases tells.unique (TextLine.tells_of_silent silent)
  cases taken
  rfl

theorem Passes.rewritten (passes : s.Passes line s') (rewritten : line.Rewritten line') :
    s.Passes line' s' := by
  obtain ⟨told, tells, taken⟩ := passes
  exact ⟨told, tells.rewritten rewritten, taken⟩

theorem placed_comm (s : Loading) (i j k l : Nat) (first second q : Qubo Binary64) :
    (s.placed i j first).placed k l q = (s.placed k l second).placed i j q := by
  unfold placed
  congr 1 <;> split_ifs <;> rfl

/-- Two lines that are apart, neither of them a header, can be read the other way round. -/
theorem Passes.comm (passes : s.Passes line middle) (passes' : middle.Passes line' last)
    (headless : ¬line.Heads) (headless' : ¬line'.Heads) (apart : line.Apart line') :
    ∃ other, s.Passes line' other ∧ other.Passes line last := by
  obtain ⟨told, tells, taken⟩ := passes
  obtain ⟨told', tells', taken'⟩ := passes'
  cases taken with
  | silent => exact ⟨last, ⟨told', tells', taken'⟩, .silent, tells, .silent⟩
  | header declared => cases tells.header?_eq headless
  | @entry q next i j value held sets =>
      cases taken' with
      | silent => exact ⟨s, ⟨.silent, tells', .silent⟩, _, tells, .entry held sets⟩
      | header declared => cases tells'.header?_eq headless'
      | @entry q' next' k l value' held' sets' =>
          cases held'
          have different : ¬(i = k ∧ j = l) := by
            rintro ⟨rfl, rfl⟩
            exact apart (i, j) tells.place?_eq tells'.place?_eq
          obtain ⟨other, sets_other, sets_last⟩ := Qubo.exists_set_comm different sets sets'
          refine ⟨s.placed k l other, ⟨_, tells', .entry held sets_other⟩, _, tells, ?_⟩
          rw [placed_comm s i j k l next other]
          exact .entry rfl sets_last

namespace Runs

theorem append_comm (runs : Runs s (line :: (before ++ after)) last) (headless : ¬line.Heads)
    (headless_before : ∀ other ∈ before, ¬other.Heads)
    (apart : ∀ other ∈ before, line.Apart other) : Runs s (before ++ line :: after) last := by
  induction before generalizing s with
  | nil => exact runs
  | cons other rest ih =>
      cases runs with
      | cons passes runs' =>
          cases runs' with
          | cons passes' others =>
              obtain ⟨middle, first, second⟩ := passes.comm passes' headless
                (headless_before other List.mem_cons_self) (apart other List.mem_cons_self)
              refine .cons first (ih (.cons second others) ?_ ?_)
              · exact fun later member => headless_before later (List.mem_cons_of_mem other member)
              · exact fun later member => apart later (List.mem_cons_of_mem other member)

/-- Lines without a header lead to the same state in every order that keeps the lines for one cell
in theirs. -/
theorem permute {lines' : List TextLine} (runs : Runs s lines last)
    (headless : ∀ line ∈ lines, ¬line.Heads) (perm : lines'.Perm lines)
    (ordered : ∀ place, lines'.filter (·.place? = some place) =
      lines.filter (·.place? = some place)) : Runs s lines' last := by
  induction lines generalizing s lines' with
  | nil =>
      rw [List.perm_nil.mp perm]
      exact runs
  | cons line rest ih =>
      cases runs with
      | cons passes others =>
          obtain ⟨before, after, rfl, apart⟩ := TextLine.exists_apart_of_order perm ordered
          have perm_rest : (before ++ after).Perm rest :=
            (List.perm_middle.symm.trans perm).cons_inv
          have runs_rest := ih others
            (fun later member => headless later (List.mem_cons_of_mem line member))
            perm_rest (fun place => TextLine.filter_append_of_order apart (ordered place))
          refine append_comm (.cons passes runs_rest) (headless line List.mem_cons_self) ?_ apart
          intro other member
          have listed : other ∈ before ++ line :: after := List.mem_append_left _ member
          exact headless other (perm.mem_iff.mp listed)

/-- No edit changes the state that the lines lead to. -/
theorem edit {lines' : List TextLine} (runs : Runs s lines last)
    (edit : TextLine.Edit lines lines') : Runs s lines' last := by
  cases edit with
  | insert before silent after =>
      obtain ⟨middle, first, second⟩ := append_iff.mp runs
      exact append_iff.mpr ⟨middle, first, .cons (passes_of_silent silent) second⟩
  | delete before silent after =>
      obtain ⟨middle, first, second⟩ := append_iff.mp runs
      cases second with
      | cons passes others =>
          rw [passes.eq_of_silent silent] at others
          exact append_iff.mpr ⟨middle, first, others⟩
  | rewrite before rewritten after =>
      obtain ⟨middle, first, second⟩ := append_iff.mp runs
      cases second with
      | cons passes others =>
          exact append_iff.mpr ⟨middle, first, .cons (passes.rewritten rewritten) others⟩
  | permute before headless perm ordered =>
      obtain ⟨middle, first, second⟩ := append_iff.mp runs
      exact append_iff.mpr ⟨middle, first, second.permute headless perm ordered⟩

end Runs

/-- Every piece of a text that is read to its end is a line of characters. -/
theorem exists_joined_eq {text : List UInt8} (reads : readLines (Text.lines text) = .ok last) :
    ∃ lines, joined lines = text := by
  rw [readLines_lines] at reads
  obtain ⟨told, each, _⟩ := Follows.start.exists_lines_of_foldlM reads
  have both : List.Forall₂ (fun piece line => (∃ chars, Text.decode? piece = some chars) ∧
      Line.Reads piece line) (Text.pieces text) told :=
    each.imp fun _ _ reads => ⟨reads.imp fun _ told => told.1, reads⟩
  have decodes := ((List.forall₂_and_left _ _).mp both).1
  have listed : Text.pieces text ∈
      Set.range (List.map fun line : TextLine => Text.bytes line.text) := by
    rw [Set.range_list_map]
    intro piece member
    obtain ⟨chars, decoded⟩ := decodes piece member
    obtain ⟨line, rfl⟩ := Text.exists_bytes_eq_of_decode? decoded
    have unbroken : '\n' ∉ line.toList := fun inside =>
      Text.lineFeed_not_mem_of_mem_pieces member (Text.lineFeed_mem_bytes inside)
    exact ⟨⟨line, unbroken⟩, rfl⟩
  obtain ⟨lines, pieces_eq⟩ := listed
  have some_line : lines ≠ [] := by
    rintro rfl
    exact Text.pieces_ne_nil text pieces_eq.symm
  exact ⟨lines, Text.pieces_inj ((pieces_joined some_line).trans pieces_eq)⟩

end Loading

/-- Every accepted text is made of lines of characters; and whatever edits are made to its lines, one
after the other, the text is accepted as before and has the same matrix. -/
theorem load_of_edits {text : List UInt8} {q : Qubo Binary64} (loads : load text = .ok q) :
    (∃ lines, TextLine.joined lines = text) ∧
    ∀ lines lines', TextLine.joined lines = text →
      Relation.ReflTransGen TextLine.Edit lines lines' →
        load (TextLine.joined lines') = .ok q := by
  constructor
  · obtain ⟨last, reads, _⟩ := Loading.bind_eq_ok_iff.mp loads
    exact Loading.exists_joined_eq reads
  · rintro lines lines' rfl edits
    obtain ⟨last, runs, finishes⟩ := Loading.load_joined_eq_ok_iff.mp loads
    refine Loading.load_joined_eq_ok_iff.mpr ⟨last, ?_, finishes⟩
    clear loads finishes
    induction edits with
    | refl => exact runs
    | tail _ edit ih => exact ih.edit edit

/-- A comment before the header, a tabulator, a word and a carriage return in it, and the two entries
the other way round. -/
theorem load_of_edits_of_every_line :
    let text := "p qubo 0 2 1 1\n0 0 1\n0 1 2".toUTF8.toList
    let text' := "c swapped\np\tqubo 0 2 1 1 more\r\n0 1 2\n0 0 1".toUTF8.toList
    ∃ q lines lines', load text = .ok q ∧ TextLine.joined lines = text ∧
      Relation.ReflTransGen TextLine.Edit lines lines' ∧ TextLine.joined lines' = text' ∧
      load text' = .ok q := by
  intro text text'
  let header : TextLine := ⟨"p qubo 0 2 1 1", by decide⟩
  let header' : TextLine := ⟨"p\tqubo 0 2 1 1 more", by decide⟩
  let header'' : TextLine := ⟨"p\tqubo 0 2 1 1 more\r", by decide⟩
  let comment : TextLine := ⟨"c swapped", by decide⟩
  let node : TextLine := ⟨"0 0 1", by decide⟩
  let coupler : TextLine := ⟨"0 1 2", by decide⟩
  have node_tokens : Text.tokens node.chars = [['0'], ['0'], ['1']] := by decide
  have coupler_tokens : Text.tokens coupler.chars = [['0'], ['1'], ['2']] := by decide
  have commented : TextLine.Edit [header, node, coupler] [comment, header, node, coupler] :=
    .insert [] (.inr ⟨["swapped".toList], Text.spaced_iff.mpr (by decide)⟩) _
  have extended : TextLine.Edit [comment, header, node, coupler]
      [comment, header', node, coupler] := by
    let words := ["qubo", "0", "2", "1", "1"].map String.toList
    have spaced : Text.Spaced (['p'] :: words) header.chars := Text.spaced_iff.mpr (by decide)
    have spaced' : Text.Spaced (['p'] :: words ++ ["more".toList]) header'.chars :=
      Text.spaced_iff.mpr (by decide)
    exact .rewrite [comment] (.extended spaced spaced') _
  have returned : TextLine.Edit [comment, header', node, coupler]
      [comment, header'', node, coupler] := .rewrite [comment] (.returned (by decide)) _
  have swapped : TextLine.Edit [comment, header'', node, coupler]
      [comment, header'', coupler, node] := by
    refine .permute [comment, header''] ?_ (.swap node coupler []) ?_
    · intro line member
      rintro ⟨rest, spaced⟩
      have tokens_eq := spaced.tokens_eq
      rcases List.mem_pair.mp member with rfl | rfl
      · cases node_tokens.symm.trans tokens_eq
      · cases coupler_tokens.symm.trans tokens_eq
    · intro place
      have node_place : node.place? = some (0, 0) := by decide
      have coupler_place : coupler.place? = some (0, 1) := by decide
      by_cases first : place = (0, 0)
      · subst first
        simp [node_place, coupler_place]
      · simp [List.filter_cons, node_place, coupler_place, Ne.symm first]
  have edits : Relation.ReflTransGen TextLine.Edit [header, node, coupler]
      [comment, header'', coupler, node] :=
    (((Relation.ReflTransGen.single commented).tail extended).tail returned).tail swapped
  have joined_eq : TextLine.joined [header, node, coupler] = text := by decide +kernel
  have joined_eq' : TextLine.joined [comment, header'', coupler, node] = text' := by
    decide +kernel
  have accepted : (load text).toOption.isSome = true := by decide +kernel
  cases loads : load text with
  | error failure =>
      rw [loads] at accepted
      cases accepted
  | ok q =>
      have loads' := (load_of_edits loads).2 _ _ joined_eq edits
      rw [joined_eq'] at loads'
      exact ⟨q, _, _, rfl, joined_eq, edits, joined_eq', loads'⟩

end BinaryQuadratic
