import BinaryQuadratic.Proofs.Indexed.Loader
import BinaryQuadratic.Proofs.LineEnds

set_option autoImplicit false

/-! What makes a text no problem file. A line has to pass its checks in a fixed order, some of them
against the size that the latest header before it declares; the first line that fails one decides the
error, and nothing after it is looked at. A text without such a line can only lack a header or
have other counts than declared. -/

namespace BinaryQuadratic

variable {β δ : Type}

/-- A condition on a line, with the error of a line that does not meet it. -/
structure Check where
  passes : Bool
  error : LoadError

namespace Check

def firstFailure (checks : List Check) : Option LoadError :=
  (checks.find? (!·.passes)).map (·.error)

theorem firstFailure_cons_of_passes {check : Check} (passes : check.passes = true)
    (rest : List Check) : firstFailure (check :: rest) = firstFailure rest := by
  unfold firstFailure
  rw [List.find?_cons_of_neg (by simp [passes])]

theorem firstFailure_cons_of_fails {check : Check} (fails : check.passes = false)
    (rest : List Check) : firstFailure (check :: rest) = some check.error := by
  unfold firstFailure
  rw [List.find?_cons_of_pos (by simp [fails])]
  rfl

/-- The token can be read. -/
def readable (line : Nat) (read : List Char → Option β) (token : List Char) : Check :=
  ⟨(read token).isSome, .malformed line (.notANumber token)⟩

end Check

namespace Line

def headerChecks (line : Nat) (tokens : List (List Char)) : List Check :=
  let token (k : Nat) := tokens.getD k []
  let size := (Text.natural? (token 3)).getD 0
  [⟨6 ≤ tokens.length, .malformed line .headerTooShort⟩,
    .readable line Text.natural? (token 3),
    .readable line Text.natural? (token 4),
    .readable line Text.natural? (token 5),
    ⟨size < refusedSize, .tooLarge line size⟩]

/-- The checks of an entry under a header of this size, if there is one. -/
def entryChecks (latest : Option Nat) (line : Nat) (tokens : List (List Char)) : List Check :=
  let token (k : Nat) := tokens.getD k []
  let size := latest.getD 0
  let i := (Text.natural? (token 0)).getD 0
  let j := (Text.natural? (token 1)).getD 0
  [⟨latest.isSome, .entryBeforeHeader line⟩,
    ⟨3 ≤ tokens.length, .malformed line .entryTooShort⟩,
    .readable line Text.natural? (token 0),
    .readable line Text.natural? (token 1),
    .readable line Text.decimal? (token 2),
    ⟨i < size, .indexOutOfRange line i size⟩,
    ⟨j < size, .indexOutOfRange line j size⟩,
    ⟨i ≤ j, .couplerOrder line i j⟩]

def tokenChecks (latest : Option Nat) (line : Nat) (tokens : List (List Char)) : List Check :=
  match tokens with
  | [] => []
  | ['c'] :: _ => []
  | ['p'] :: _ => headerChecks line tokens
  | _ => entryChecks latest line tokens

theorem tokenChecks_of_entry {latest : Option Nat} {line : Nat} {first : List Char}
    {rest : List (List Char)} (no_comment : first ≠ ['c']) (no_header : first ≠ ['p']) :
    tokenChecks latest line (first :: rest) = entryChecks latest line (first :: rest) := by
  unfold tokenChecks
  split
  · contradiction
  · rename_i same
    exact absurd (List.cons.inj same).1 no_comment
  · rename_i same
    exact absurd (List.cons.inj same).1 no_header
  · rfl

def checks (latest : Option Nat) (line : Nat) (bytes : List UInt8) : List Check :=
  match Text.decode? bytes with
  | none => [⟨false, .notUtf8⟩]
  | some text => tokenChecks latest line (Text.tokens text)

/-- The size that a header declares; other lines declare none. -/
def tokenSize? (tokens : List (List Char)) : Option Nat :=
  match tokens with
  | ['p'] :: _ :: _ :: size :: _ => Text.natural? size
  | _ => none

def headerSize? (bytes : List UInt8) : Option Nat :=
  (Text.decode? bytes).bind fun text => tokenSize? (Text.tokens text)

def latestSize (before : List (List UInt8)) : Option Nat := (before.filterMap headerSize?).getLast?

/-- What is wrong with a line that stands after these lines. -/
def fault (before : List (List UInt8)) (bytes : List UInt8) : Option LoadError :=
  Check.firstFailure (checks (latestSize before) (before.length + 1) bytes)

theorem latestSize_append (before : List (List UInt8)) (bytes : List UInt8) :
    latestSize (before ++ [bytes]) = (headerSize? bytes).or (latestSize before) := by
  unfold latestSize
  rw [List.filterMap_append, List.getLast?_append]
  congr 1
  cases declared : headerSize? bytes with
  | none => simp [declared]
  | some size => simp [declared]

theorem tokenSize?_of_tells {tokens : List (List Char)} {line : Line} (tells : Tells tokens line) :
    tokenSize? tokens = line.header?.map Header.size := by
  cases tells with
  | blank => rfl
  | comment => rfl
  | header size_eq => exact size_eq
  | entry no_comment no_header =>
      unfold tokenSize?
      split
      · rename_i same
        exact absurd (List.cons.inj same).1 no_header
      · rfl

theorem headerSize?_of_reads {bytes : List UInt8} {line : Line} (reads : Reads bytes line) :
    headerSize? bytes = line.header?.map Header.size := by
  obtain ⟨text, decoded, tells⟩ := reads
  unfold headerSize?
  rw [decoded]
  exact tokenSize?_of_tells tells

end Line

/-! ### The failure of one line -/

namespace Loading

def failure? : Except LoadError β → Option LoadError
  | .ok _ => none
  | .error failure => some failure

theorem eq_error_of_failure? {outcome : Except LoadError β} {failure : LoadError}
    (fails : failure? outcome = some failure) : outcome = .error failure := by
  cases outcome with
  | ok value => cases fails
  | error found => rw [Option.some.inj fails]

theorem exists_ok_of_failure? {outcome : Except LoadError β} (passes : failure? outcome = none) :
    ∃ value, outcome = .ok value := by
  cases outcome with
  | ok value => exact ⟨value, rfl⟩
  | error found => cases passes

/-- A token that is read for a step is a check before those of the step. -/
theorem failure?_number?_bind {number : Nat} {read : List Char → Option β} {token : List Char}
    {next : β → Except LoadError δ} {rest : List Check}
    (after : ∀ value, read token = some value → failure? (next value) = Check.firstFailure rest) :
    failure? (number? number read token >>= next) =
      Check.firstFailure (.readable number read token :: rest) := by
  unfold number?
  cases found : read token with
  | none =>
      have fails : (Check.readable number read token).passes = false := by
        simp [Check.readable, found]
      rw [Check.firstFailure_cons_of_fails fails]
      rfl
  | some value =>
      have passes : (Check.readable number read token).passes = true := by
        simp [Check.readable, found]
      rw [Check.firstFailure_cons_of_passes passes]
      exact after value found

variable (s : Loading) (number : Nat)

theorem failure?_header (tokens : List (List Char)) :
    failure? (s.header number tokens) = Check.firstFailure (Line.headerChecks number tokens) := by
  match tokens with
  | [] | [_] | [_, _] | [_, _, _] | [_, _, _, _] | [_, _, _, _, _] => rfl
  | first :: kind :: topology :: size :: nodes :: couplers :: rest =>
      unfold header Line.headerChecks
      rw [Check.firstFailure_cons_of_passes (by simp)]
      refine failure?_number?_bind fun value size_eq => failure?_number?_bind fun _ _ =>
        failure?_number?_bind fun _ _ => ?_
      have size_eq : Text.natural? ((first :: kind :: topology :: size :: nodes :: couplers ::
        rest).getD 3 []) = some value := size_eq
      simp only [size_eq, Option.getD_some]
      by_cases refused : refusedSize ≤ value
      · rw [if_pos refused, Check.firstFailure_cons_of_fails (by simp [refused])]
        rfl
      · rw [if_neg refused, Check.firstFailure_cons_of_passes (by simp [Nat.not_le.mp refused])]
        rfl

theorem failure?_place (q : Qubo Binary64) (i j : Nat) (value : Binary64) :
    failure? (s.place number q i j value) = Check.firstFailure
      [⟨i < q.size, .indexOutOfRange number i q.size⟩, ⟨j < q.size, .indexOutOfRange number j q.size⟩,
        ⟨i ≤ j, .couplerOrder number i j⟩] := by
  unfold place
  by_cases row : i < q.size
  · rw [dif_pos row, Check.firstFailure_cons_of_passes (decide_eq_true row)]
    by_cases column : j < q.size
    · rw [dif_pos column, Check.firstFailure_cons_of_passes (decide_eq_true column)]
      by_cases ordered : i ≤ j
      · rw [if_neg (Nat.not_lt.mpr ordered), Check.firstFailure_cons_of_passes (decide_eq_true ordered)]
        split <;> rfl
      · have behind : j < i := Nat.not_le.mp ordered
        rw [if_neg behind.ne', if_pos behind,
          Check.firstFailure_cons_of_fails (decide_eq_false ordered)]
        rfl
    · rw [dif_neg column, Check.firstFailure_cons_of_fails (decide_eq_false column)]
      rfl
  · rw [dif_neg row, Check.firstFailure_cons_of_fails (decide_eq_false row)]
    rfl

theorem failure?_entry (tokens : List (List Char)) :
    failure? (s.entry number tokens) =
      Check.firstFailure (Line.entryChecks (s.qubo.map (·.size)) number tokens) := by
  unfold entry
  cases s.qubo with
  | none => rfl
  | some q =>
      match tokens with
      | [] | [_] | [_, _] => rfl
      | row :: column :: digits :: rest =>
          unfold Line.entryChecks
          rw [Check.firstFailure_cons_of_passes rfl, Check.firstFailure_cons_of_passes (by simp)]
          refine failure?_number?_bind fun i row_eq => failure?_number?_bind fun j column_eq =>
            failure?_number?_bind fun value _ => ?_
          have row_eq : Text.natural? ((row :: column :: digits :: rest).getD 0 []) = some i := row_eq
          have column_eq : Text.natural? ((row :: column :: digits :: rest).getD 1 []) = some j :=
            column_eq
          simp only [row_eq, column_eq, Option.getD_some, Option.map_some]
          exact failure?_place s number q i j value

theorem failure?_readTokens (tokens : List (List Char)) :
    failure? (s.readTokens number tokens) =
      Check.firstFailure (Line.tokenChecks (s.qubo.map (·.size)) number tokens) := by
  cases tokens with
  | nil => rfl
  | cons first rest =>
      by_cases comment : first = ['c']
      · rw [comment]
        rfl
      · by_cases heads : first = ['p']
        · rw [heads]
          exact failure?_header s number (['p'] :: rest)
        · rw [readTokens_of_entry comment heads, Line.tokenChecks_of_entry comment heads]
          exact failure?_entry s number (first :: rest)

/-- A line fails by the first check that it does not pass. -/
theorem failure?_readLine (bytes : List UInt8) :
    failure? (s.readLine number bytes) =
      Check.firstFailure (Line.checks (s.qubo.map (·.size)) number bytes) := by
  unfold readLine Line.checks
  cases Text.decode? bytes with
  | none => rfl
  | some text => exact failure?_readTokens s number (Text.tokens text)

end Loading

/-! ### The first faulty line -/

namespace Line

/-- None of the lines is faulty. -/
def Sound (lines : List (List UInt8)) : Prop :=
  ∀ before bytes, before ++ [bytes] <+: lines → fault before bytes = none

theorem Sound.nil : Sound [] := by
  intro before bytes part
  exact absurd (List.prefix_nil.mp part) (List.append_ne_nil_of_right_ne_nil before (by simp))

theorem sound_append_iff {lines : List (List UInt8)} {bytes : List UInt8} :
    Sound (lines ++ [bytes]) ↔ Sound lines ∧ fault lines bytes = none := by
  constructor
  · intro sound
    refine ⟨fun before earlier part => ?_, sound lines bytes List.prefix_rfl⟩
    exact sound before earlier (part.trans (List.prefix_append lines [bytes]))
  · rintro ⟨sound, none_here⟩ before earlier part
    rcases List.prefix_concat_iff.mp part with whole | inside
    · obtain ⟨rfl, singles⟩ := List.append_inj' whole rfl
      rw [List.singleton_inj.mp singles]
      exact none_here
    · exact sound before earlier inside

/-- The first faulty one of the lines, those before it and what is wrong with it. -/
structure FirstFault (lines before : List (List UInt8)) (bytes : List UInt8) (failure : LoadError) :
    Prop where
  part : before ++ [bytes] <+: lines
  sound_before : Sound before
  fails : fault before bytes = some failure

theorem sound_or_exists_firstFault (lines : List (List UInt8)) :
    Sound lines ∨ ∃ before bytes failure, FirstFault lines before bytes failure := by
  induction lines using List.reverseRecOn with
  | nil => exact .inl .nil
  | append_singleton lines bytes ih =>
      rcases ih with sound | ⟨before, earlier, failure, part, sound_before, fails⟩
      · cases here : fault lines bytes with
        | none => exact .inl (sound_append_iff.mpr ⟨sound, here⟩)
        | some failure => exact .inr ⟨lines, bytes, failure, List.prefix_rfl, sound, here⟩
      · exact .inr ⟨before, earlier, failure, part.trans (List.prefix_append lines [bytes]),
          sound_before, fails⟩

end Line

namespace Loading

variable {s s' : Loading} {lines : List (List UInt8)} {bytes : List UInt8}

theorem readLines_append (lines after : List (List UInt8)) :
    readLines (lines ++ after) = readLines lines >>= fun s =>
      (after.zipIdx (lines.length + 1)).foldlM (fun s (bytes, line) => s.readLine line bytes) s := by
  unfold readLines
  rw [List.zipIdx_append, List.foldlM_append, Nat.add_comm 1]

/-- The state after a line has the size of the latest header up to it. -/
theorem latestSize_of_readLine (latest : s.qubo.map (·.size) = Line.latestSize lines) {number : Nat}
    (reads : s.readLine number bytes = .ok s') :
    s'.qubo.map (·.size) = Line.latestSize (lines ++ [bytes]) := by
  obtain ⟨line, told, taken⟩ := readLine_eq_ok_iff.mp reads
  rw [Line.latestSize_append, Line.headerSize?_of_reads told, ← latest]
  cases taken with
  | silent => rfl
  | header declared => rfl
  | entry held sets =>
      rw [held]
      exact congrArg some (Qubo.size_of_set sets)

theorem failure?_readLine_of_latest (latest : s.qubo.map (·.size) = Line.latestSize lines)
    (bytes : List UInt8) :
    failure? (s.readLine (lines.length + 1) bytes) = Line.fault lines bytes := by
  rw [failure?_readLine, latest]
  rfl

theorem exists_readLines_of_sound (sound : Line.Sound lines) :
    ∃ s, readLines lines = .ok s ∧ s.qubo.map (·.size) = Line.latestSize lines := by
  induction lines using List.reverseRecOn with
  | nil => exact ⟨start, rfl, rfl⟩
  | append_singleton lines bytes ih =>
      obtain ⟨sound_before, none_here⟩ := Line.sound_append_iff.mp sound
      obtain ⟨s, read, latest⟩ := ih sound_before
      rw [← failure?_readLine_of_latest latest] at none_here
      obtain ⟨s', reads⟩ := exists_ok_of_failure? none_here
      refine ⟨s', ?_, latestSize_of_readLine latest reads⟩
      rw [readLines_append, read]
      change (s.readLine (lines.length + 1) bytes >>= pure) = .ok s'
      rw [reads]
      rfl

theorem readLines_of_firstFault {before : List (List UInt8)} {failure : LoadError}
    (first : Line.FirstFault lines before bytes failure) : readLines lines = .error failure := by
  obtain ⟨⟨rest, rfl⟩, sound_before, fails⟩ := first
  obtain ⟨s, read, latest⟩ := exists_readLines_of_sound sound_before
  rw [← failure?_readLine_of_latest latest] at fails
  rw [List.append_assoc, readLines_append, read]
  change (s.readLine (before.length + 1) bytes >>= _) = .error failure
  rw [eq_error_of_failure? fails]
  rfl

theorem Follows.finish_cases {read : List Line} (follows : s.Follows read) :
    ((∀ line ∈ read, line.header? = none) ∧ s.finish = .error .missingHeader) ∨
    ∃ declared after q, Line.Headed read declared after ∧
      Qubo.ofEntries declared.size (Line.entries after) = .ok q ∧
      s.finish =
        if Line.entryCount (· = ·) read ≠ declared.nodes then
          .error (.nodeCount declared.nodes (Line.entryCount (· = ·) read))
        else if Line.entryCount (· < ·) read ≠ declared.couplers then
          .error (.couplerCount declared.couplers (Line.entryCount (· < ·) read))
        else .ok q := by
  unfold finish
  rcases follows.matrix with ⟨none_yet, headless⟩ | ⟨declared, after, q, headed, keeps⟩
  · rw [none_yet]
    exact .inl ⟨headless, rfl⟩
  · rw [keeps.qubo_eq, keeps.nodes_eq, keeps.couplers_eq, follows.nodes_eq, follows.couplers_eq]
    exact .inr ⟨declared, after, q, headed, keeps.filled, rfl⟩

end Loading

theorem load_of_firstFault {text : List UInt8} {before : List (List UInt8)} {bytes : List UInt8}
    {failure : LoadError} (first : Line.FirstFault (Text.lines text) before bytes failure) :
    load text = .error failure := by
  unfold load
  rw [Loading.readLines_of_firstFault first]
  rfl

/-- What follows the line end of the first faulty line does not matter. -/
theorem Line.FirstFault.of_same_head {head after : List UInt8} {before : List (List UInt8)}
    {bytes : List UInt8} {failure : LoadError}
    (first : FirstFault (Text.lines (head ++ Text.lineFeed :: after)) before bytes failure)
    (ends_here : head.count Text.lineFeed = before.length) (other : List UInt8) :
    FirstFault (Text.lines (head ++ Text.lineFeed :: other)) before bytes failure := by
  obtain ⟨⟨rest, cut⟩, sound_before, fails⟩ := first
  rw [Text.lines_append_lineFeed] at cut ⊢
  have same_length : (before ++ [bytes]).length = (Text.pieces head).length := by
    rw [Text.length_pieces, ends_here, List.length_append, List.length_singleton]
  obtain ⟨same, _⟩ := List.append_inj cut same_length
  rw [← same]
  exact ⟨List.prefix_append _ _, sound_before, fails⟩

/-- A text is loaded without a fault of the program. If one of its lines is faulty, then the first
such line decides the error, and whatever stands after its line end could be anything else.
Otherwise a missing header, then the count of the nodes and then that of the couplers is what can
still be wrong. -/
theorem load_by_firstFault (text : List UInt8) :
    Indexed.load text = Indexed.settled (load text) ∧
    (Line.Sound (Text.lines text) ∨
      ∃ before bytes failure, Line.FirstFault (Text.lines text) before bytes failure) ∧
    (∀ before bytes failure, Line.FirstFault (Text.lines text) before bytes failure →
      load text = .error failure ∧
      ∀ head after, text = head ++ Text.lineFeed :: after →
        head.count Text.lineFeed = before.length →
        ∀ other, load (head ++ Text.lineFeed :: other) = .error failure) ∧
    (Line.Sound (Text.lines text) →
      ∃ lines, List.Forall₂ Line.Reads (Text.lines text) lines ∧
        (((∀ line ∈ lines, line.header? = none) ∧ load text = .error .missingHeader) ∨
          ∃ declared after q, Line.Headed lines declared after ∧
            Qubo.ofEntries declared.size (Line.entries after) = .ok q ∧
            load text =
              if Line.entryCount (· = ·) lines ≠ declared.nodes then
                .error (.nodeCount declared.nodes (Line.entryCount (· = ·) lines))
              else if Line.entryCount (· < ·) lines ≠ declared.couplers then
                .error (.couplerCount declared.couplers (Line.entryCount (· < ·) lines))
              else .ok q)) := by
  refine ⟨Indexed.load_eq_settled text, Line.sound_or_exists_firstFault _, ?_, ?_⟩
  · intro before bytes failure first
    refine ⟨load_of_firstFault first, ?_⟩
    rintro head after rfl ends_here other
    exact load_of_firstFault (first.of_same_head ends_here other)
  · intro sound
    obtain ⟨s, read, _⟩ := Loading.exists_readLines_of_sound sound
    obtain ⟨lines, reads, follows⟩ := Loading.Follows.start.exists_lines_of_foldlM read
    have load_eq : load text = s.finish := by
      unfold load
      rw [read]
      rfl
    refine ⟨lines, reads, ?_⟩
    rw [load_eq]
    exact follows.finish_cases

/-- The third line has its indices in the wrong order, but its value is looked at before that; the
lines after it are faulty as well. -/
theorem load_by_firstFault_in_third_line :
    let head := "p qubo 0 2 0 1\nc\n1 0 one".toUTF8.toList
    let after := "7 7 7\np\n".toUTF8.toList
    let text := head ++ Text.lineFeed :: after
    let before := ["p qubo 0 2 0 1".toUTF8.toList, "c".toUTF8.toList]
    let bytes := "1 0 one".toUTF8.toList
    let failure := LoadError.malformed 3 (.notANumber ['o', 'n', 'e'])
    Line.FirstFault (Text.lines text) before bytes failure ∧ head.count Text.lineFeed = before.length ∧
      load text = .error failure ∧ ∀ other, load (head ++ Text.lineFeed :: other) = .error failure := by
  intro head after text before bytes failure
  have sound_before : Line.Sound before := by
    have header_sound : Line.Sound [before[0]] :=
      Line.sound_append_iff.mpr ⟨.nil, by decide +kernel⟩
    exact Line.sound_append_iff.mpr ⟨header_sound, by decide +kernel⟩
  have first : Line.FirstFault (Text.lines text) before bytes failure :=
    ⟨by decide +kernel, sound_before, by decide +kernel⟩
  have ends_here : head.count Text.lineFeed = before.length := by decide +kernel
  obtain ⟨loads, whatever⟩ := (load_by_firstFault text).2.2.1 before bytes failure first
  exact ⟨first, ends_here, loads, whatever head after rfl ends_here⟩

end BinaryQuadratic
