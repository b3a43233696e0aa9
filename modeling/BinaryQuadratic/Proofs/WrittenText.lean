import BinaryQuadratic.Proofs.Encoding
import BinaryQuadratic.Proofs.FaultyLines
import BinaryQuadratic.Proofs.Tokens

set_option autoImplicit false

/-! Problem files as they are written: a header, and a line for each entry. Loading gives what the
list of entries gives, however the values are spelt, if the header declares what is in the list. -/

namespace BinaryQuadratic

variable {n : Nat}

/-- An entry of a matrix with `n` variables, and a spelling of its value. -/
structure WrittenEntry (n : Nat) where
  row : Nat
  column : Nat
  ordered : row ≤ column
  inside : column < n
  token : List Char
  value : Binary64
  token_reads : Text.decimal? token = some value

namespace WrittenEntry

def triple (entry : WrittenEntry n) : Nat × Nat × Binary64 := (entry.row, entry.column, entry.value)

def line (entry : WrittenEntry n) : Line := .entry entry.row entry.column entry.value

def text (entry : WrittenEntry n) : String :=
  s!"{entry.row} {entry.column} {String.ofList entry.token}"

end WrittenEntry

def Header.text (declared : Header) : String :=
  s!"p qubo 0 {declared.size} {declared.nodes} {declared.couplers}"

/-- The lines of a file, the last of them with a line feed or without. -/
def writtenText (ended : Bool) (declared : Header) (entries : List (WrittenEntry declared.size)) :
    String :=
  "\n".intercalate (declared.text :: entries.map WrittenEntry.text) ++ if ended then "\n" else ""

/-- The text is made of the words, with single blanks between them. -/
structure Spells (text : String) (words : List (List Char)) : Prop where
  some_word : words ≠ []
  isToken : ∀ word ∈ words, Text.IsToken word
  toList_eq : text.toList = [' '].intercalate words

namespace Spells

variable {text : String} {words : List (List Char)}

theorem tokens_eq (spells : Spells text words) : Text.tokens text.toList = words := by
  rw [spells.toList_eq]
  exact Text.tokens_intercalate spells.isToken

theorem reads (spells : Spells text words) {line : Line} (tells : Line.Tells words line) :
    Line.Reads (Text.bytes text) line := by
  rw [← spells.tokens_eq] at tells
  exact ⟨text.toList, Text.decode?_bytes text, tells⟩

/-- A line feed is a blank, so it is in no word. -/
theorem isLine (spells : Spells text words) : text ≠ "" ∧ '\n' ∉ text.toList := by
  constructor
  · rintro rfl
    exact spells.some_word spells.tokens_eq.symm
  · rw [spells.toList_eq]
    intro member
    rcases Text.mem_intercalate member with same | ⟨word, listed, inside⟩
    · cases same
    · have solid := (spells.isToken word listed).solid _ inside
      cases solid

end Spells

theorem le_greatestWord_of_le {count : Nat} (allocated : count ≤ refusedSize) :
    count ≤ greatestWord :=
  allocated.trans (by decide)

namespace Header

variable (declared : Header)

def words : List (List Char) :=
  [['p'], ['q', 'u', 'b', 'o'], ['0'], Nat.toDigits 10 declared.size,
    Nat.toDigits 10 declared.nodes, Nat.toDigits 10 declared.couplers]

theorem isToken_of_words : ∀ word ∈ declared.words, Text.IsToken word := by
  intro word member
  simp only [words, List.mem_cons, List.not_mem_nil, or_false] at member
  rcases member with rfl | rfl | rfl | rfl | rfl | rfl
  · exact ⟨by decide, by decide⟩
  · exact ⟨by decide, by decide⟩
  · exact ⟨by decide, by decide⟩
  · exact Text.isToken_toDigits declared.size
  · exact Text.isToken_toDigits declared.nodes
  · exact Text.isToken_toDigits declared.couplers

theorem spells : Spells declared.text declared.words := by
  have parts : declared.text = "p qubo 0 " ++ toString declared.size ++ " " ++
      toString declared.nodes ++ " " ++ toString declared.couplers := rfl
  apply Spells.mk (List.cons_ne_nil _ _) declared.isToken_of_words
  rw [parts]
  simp [List.intercalate_cons_cons]

theorem reads_text (nodes_word : declared.nodes ≤ greatestWord)
    (couplers_word : declared.couplers ≤ greatestWord) :
    Line.Reads (Text.bytes declared.text) (.header declared) := by
  have size_word : declared.size ≤ greatestWord := le_greatestWord_of_le declared.allocated.le
  have tells : Line.Tells declared.words (.header declared) := by
    apply Line.Tells.header
    · exact Text.natural?_toDigits declared.size size_word
    · exact Text.natural?_toDigits declared.nodes nodes_word
    · exact Text.natural?_toDigits declared.couplers couplers_word
  exact declared.spells.reads tells

end Header

namespace WrittenEntry

variable (entry : WrittenEntry n)

def words : List (List Char) :=
  [Nat.toDigits 10 entry.row, Nat.toDigits 10 entry.column, entry.token]

theorem isToken_of_words : ∀ word ∈ entry.words, Text.IsToken word := by
  intro word member
  simp only [words, List.mem_cons, List.not_mem_nil, or_false] at member
  rcases member with rfl | rfl | rfl
  · exact Text.isToken_toDigits entry.row
  · exact Text.isToken_toDigits entry.column
  · exact Text.isToken_of_decimal? entry.token_reads

theorem spells : Spells entry.text entry.words := by
  have parts : entry.text =
      toString entry.row ++ " " ++ toString entry.column ++ " " ++ String.ofList entry.token := rfl
  apply Spells.mk (List.cons_ne_nil _ _) entry.isToken_of_words
  rw [parts]
  simp [List.intercalate_cons_cons]

theorem reads_text (allocated : n < refusedSize) :
    Line.Reads (Text.bytes entry.text) entry.line := by
  have column_word := le_greatestWord_of_le (entry.inside.trans allocated).le
  have other : ∀ letter : Char, letter.isDigit = false → Nat.toDigits 10 entry.row ≠ [letter] := by
    intro letter no_digit printed
    have digits := Text.all_isDigit_toDigits entry.row
    rw [printed, List.all_cons, no_digit] at digits
    cases digits
  have tells : Line.Tells entry.words entry.line := by
    apply Line.Tells.entry
    · exact other 'c' rfl
    · exact other 'p' rfl
    · exact Text.natural?_toDigits entry.row (entry.ordered.trans column_word)
    · exact Text.natural?_toDigits entry.column column_word
    · exact entry.token_reads
  exact entry.spells.reads tells

end WrittenEntry

/-! ### All lines -/

section Lines

variable (declared : Header) (entries : List (WrittenEntry n))

def writtenLines : List Line := .header declared :: entries.map WrittenEntry.line

theorem entries_map_line : Line.entries (entries.map WrittenEntry.line) =
    entries.map WrittenEntry.triple := by
  unfold Line.entries
  rw [List.filterMap_map, ← List.filterMap_eq_map]
  rfl

theorem entryCount_writtenLines (counts : Nat → Nat → Prop) [DecidableRel counts] :
    Line.entryCount counts (writtenLines declared entries) =
      entries.countP fun entry => counts entry.row entry.column := by
  have same : Line.entries (writtenLines declared entries) = entries.map WrittenEntry.triple :=
    entries_map_line entries
  unfold Line.entryCount
  rw [same, List.countP_map]
  rfl

theorem header?_of_mem {line : Line} (member : line ∈ entries.map WrittenEntry.line) :
    line.header? = none := by
  obtain ⟨entry, _, rfl⟩ := List.mem_map.mp member
  rfl

theorem headed_writtenLines :
    Line.Headed (writtenLines declared entries) declared (entries.map WrittenEntry.line) :=
  ⟨[], rfl, fun _ member => header?_of_mem entries member⟩

end Lines

section File

variable (declared : Header) (entries : List (WrittenEntry declared.size))

/-- The header is the only one, so it is the one before every entry. -/
theorem placed_writtenLines : Line.Placed (writtenLines declared entries) := by
  intro before i j value after split
  cases before with
  | nil => cases split
  | cons first others =>
      obtain ⟨rfl, rest⟩ := List.cons.inj split
      have member : Line.entry i j value ∈ entries.map WrittenEntry.line := by
        rw [rest]
        exact List.mem_append_right others List.mem_cons_self
      have none_between : ∀ line ∈ others, line.header? = none := by
        intro line earlier
        apply header?_of_mem entries
        rw [rest]
        exact List.mem_append_left _ earlier
      obtain ⟨entry, _, same⟩ := List.mem_map.mp member
      cases same
      exact ⟨entry.ordered, declared, others, ⟨[], rfl, none_between⟩, entry.inside⟩

theorem reads_writtenText (nodes_word : declared.nodes ≤ greatestWord)
    (couplers_word : declared.couplers ≤ greatestWord) (ended : Bool) :
    List.Forall₂ Line.Reads (Text.lines (Text.bytes (writtenText ended declared entries)))
      (writtenLines declared entries) := by
  have each : ∀ text ∈ declared.text :: entries.map WrittenEntry.text,
      text ≠ "" ∧ '\n' ∉ text.toList := by
    intro text member
    rcases List.mem_cons.mp member with rfl | listed
    · exact declared.spells.isLine
    · obtain ⟨entry, _, rfl⟩ := List.mem_map.mp listed
      exact entry.spells.isLine
  have cut : Text.lines (Text.bytes (writtenText ended declared entries)) =
      (declared.text :: entries.map WrittenEntry.text).map Text.bytes :=
    Text.lines_intercalate ended each
  rw [cut, List.map_cons]
  apply List.Forall₂.cons (declared.reads_text nodes_word couplers_word)
  rw [List.map_map, List.forall₂_map_left_iff, List.forall₂_map_right_iff]
  apply List.forall₂_same.mpr
  intro entry _
  exact entry.reads_text declared.allocated

/-- A text that is written from a list of entries, in any order and with repeated ones, loads as the
matrix of the list, unless the header declares other numbers of nodes and couplers. -/
theorem load_writtenText (nodes_word : declared.nodes ≤ greatestWord)
    (couplers_word : declared.couplers ≤ greatestWord) (ended : Bool) :
    ∃ q, Qubo.ofEntries declared.size (entries.map WrittenEntry.triple) = .ok q ∧
      load (Text.bytes (writtenText ended declared entries)) =
        if entries.countP (fun entry => entry.row = entry.column) ≠ declared.nodes then
          .error (.nodeCount declared.nodes (entries.countP fun entry => entry.row = entry.column))
        else if entries.countP (fun entry => entry.row < entry.column) ≠ declared.couplers then
          .error (.couplerCount declared.couplers
            (entries.countP fun entry => entry.row < entry.column))
        else .ok q := by
  have reads := reads_writtenText declared entries nodes_word couplers_word ended
  have headed := headed_writtenLines declared entries
  obtain ⟨last, ends, follows⟩ := Loading.Follows.exists_foldlM_of_lines 1 reads .start
    (placed_writtenLines declared entries)
  have loads : load (Text.bytes (writtenText ended declared entries)) = last.finish := by
    unfold load Loading.readLines
    rw [ends]
    rfl
  rcases follows.finish_cases with ⟨headless, _⟩ | ⟨found, after, q, again, filled, finishes⟩
  · cases headless (.header declared) List.mem_cons_self
  · obtain ⟨rfl, rfl⟩ := headed.unique again
    rw [entries_map_line] at filled
    rw [List.nil_append, entryCount_writtenLines, entryCount_writtenLines] at finishes
    exact ⟨q, filled, loads.trans finishes⟩

end File

theorem load_writtenText_with_a_repeated_entry :
    let declared : Header := ⟨3, 1, 2, by decide⟩
    let entries : List (WrittenEntry 3) :=
      [⟨0, 2, by decide, by decide, ['1', 'e', '5'], .ofNat 100000, by decide +kernel⟩,
        ⟨1, 1, by decide, by decide, ['-', 'N', 'a', 'N'], .quietNaN true, by decide +kernel⟩,
        ⟨0, 2, by decide, by decide, ['+', '.', '5'], .ofFraction false 1 2, by decide +kernel⟩]
    1 ≤ greatestWord ∧ 2 ≤ greatestWord ∧
    ∃ q, Qubo.ofEntries 3 (entries.map WrittenEntry.triple) = .ok q ∧
      load (Text.bytes (writtenText false declared entries)) =
        if entries.countP (fun entry => entry.row = entry.column) ≠ 1 then
          .error (.nodeCount 1 (entries.countP fun entry => entry.row = entry.column))
        else if entries.countP (fun entry => entry.row < entry.column) ≠ 2 then
          .error (.couplerCount 2 (entries.countP fun entry => entry.row < entry.column))
        else .ok q := by
  intro declared entries
  exact ⟨by decide, by decide, load_writtenText declared entries (by decide) (by decide) false⟩

/-- What such a text looks like. -/
example :
    let declared : Header := ⟨3, 1, 1, by decide⟩
    let entries : List (WrittenEntry 3) :=
      [⟨0, 2, by decide, by decide, ['1', 'e', '5'], .ofNat 100000, by decide +kernel⟩,
        ⟨1, 1, by decide, by decide, ['-', 'N', 'a', 'N'], .quietNaN true, by decide +kernel⟩]
    writtenText true declared entries = "p qubo 0 3 1 1\n0 2 1e5\n1 1 -NaN\n" := by
  decide +kernel

end BinaryQuadratic
