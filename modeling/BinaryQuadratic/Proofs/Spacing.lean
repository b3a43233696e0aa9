import BinaryQuadratic.Proofs.Tokens

set_option autoImplicit false

/-! Words with blanks around them. Any blanks, and any number of them, may stand before the first word,
between two words and after the last one; the words that are found in a text are those that it is
spaced out from. -/

namespace BinaryQuadratic.Text

def AllBlank (text : List Char) : Prop := ∀ c ∈ text, isBlank c = true

/-- The text is made of the words, with blanks between them and maybe around them. -/
inductive Spaced : List (List Char) → List Char → Prop
  | blanks {gap : List Char} (blank : AllBlank gap) : Spaced [] gap
  | last {gap word : List Char} (blank : AllBlank gap) (token : IsToken word) :
      Spaced [word] (gap ++ word)
  | cons {gap word rest : List Char} {words : List (List Char)} {c : Char} (blank : AllBlank gap)
      (token : IsToken word) (separates : isBlank c = true) (others : Spaced words rest) :
      Spaced (word :: words) (gap ++ word ++ c :: rest)

section Blanks

variable {gap : List Char} {c : Char}

theorem AllBlank.nil : AllBlank [] := by
  intro c member
  cases member

theorem AllBlank.cons (first : isBlank c = true) (blank : AllBlank gap) : AllBlank (c :: gap) := by
  intro c' member
  cases member with
  | head => exact first
  | tail _ later => exact blank c' later

theorem AllBlank.of_cons (blank : AllBlank (c :: gap)) : isBlank c = true ∧ AllBlank gap :=
  ⟨blank c List.mem_cons_self, fun c' later => blank c' (List.mem_cons_of_mem c later)⟩

end Blanks

theorem closeWord_append (word : List Char) (words more : List (List Char)) :
    closeWord (word, words ++ more) = closeWord (word, words) ++ more := by
  cases word with
  | nil => rfl
  | cons c rest => rfl

/-- The words that stand after a text are not looked at when it is cut. -/
theorem foldr_extendWord_append (text : List Char) (words : List (List Char)) :
    text.foldr extendWord ([], words) =
      ((text.foldr extendWord ([], [])).1, (text.foldr extendWord ([], [])).2 ++ words) := by
  induction text with
  | nil => rfl
  | cons c rest ih =>
      rw [List.foldr_cons, List.foldr_cons, ih]
      unfold extendWord
      by_cases blank : isBlank c = true
      · rw [if_pos blank, if_pos blank, closeWord_append]
      · rw [if_neg blank, if_neg blank]

theorem tokens_append_cons {c : Char} (separates : isBlank c = true) (text rest : List Char) :
    tokens (text ++ c :: rest) = tokens text ++ tokens rest := by
  have cut : (c :: rest).foldr extendWord ([], []) = ([], tokens rest) := if_pos separates
  unfold tokens
  rw [List.foldr_append, cut, foldr_extendWord_append, closeWord_append]
  rfl

theorem tokens_append_of_allBlank {gap : List Char} (blank : AllBlank gap) (text : List Char) :
    tokens (gap ++ text) = tokens text := by
  induction gap with
  | nil => rfl
  | cons c rest ih =>
      obtain ⟨first, others⟩ := blank.of_cons
      have cut := tokens_append_cons first [] (rest ++ text)
      exact cut.trans (ih others)

namespace Spaced

variable {words : List (List Char)} {text : List Char} {c : Char}

theorem tokens_eq (spaced : Spaced words text) : tokens text = words := by
  induction spaced with
  | @blanks gap blank =>
      have cut := tokens_append_of_allBlank blank []
      rw [List.append_nil] at cut
      exact cut
  | last blank token => rw [tokens_append_of_allBlank blank, token.tokens_eq]
  | cons blank token separates others ih =>
      rw [tokens_append_cons separates, tokens_append_of_allBlank blank, token.tokens_eq, ih]
      rfl

theorem cons_blank (first : isBlank c = true) (spaced : Spaced words text) :
    Spaced words (c :: text) := by
  cases spaced with
  | blanks blank => exact .blanks (blank.cons first)
  | last blank token => exact .last (blank.cons first) token
  | cons blank token separates others => exact .cons (blank.cons first) token separates others

/-- A letter begins a word of its own before a blank, and otherwise goes on with the word there. -/
theorem exists_cons_letter (letter : isBlank c = false) (spaced : Spaced words text) :
    ∃ words', Spaced words' (c :: text) := by
  have alone : IsToken [c] := ⟨List.cons_ne_nil c [], Solid.nil.cons letter⟩
  cases spaced with
  | blanks blank =>
      cases text with
      | nil => exact ⟨[[c]], .last .nil alone⟩
      | cons b gap =>
          obtain ⟨separates, others⟩ := blank.of_cons
          exact ⟨[[c]], .cons .nil alone separates (.blanks others)⟩
  | @last gap word blank token =>
      cases gap with
      | nil => exact ⟨[c :: word], .last .nil ⟨List.cons_ne_nil c word, token.solid.cons letter⟩⟩
      | cons b gap =>
          obtain ⟨separates, others⟩ := blank.of_cons
          exact ⟨[[c], word], .cons .nil alone separates (.last others token)⟩
  | @cons gap word rest words b blank token separates others =>
      cases gap with
      | nil =>
          exact ⟨(c :: word) :: words,
            .cons .nil ⟨List.cons_ne_nil c word, token.solid.cons letter⟩ separates others⟩
      | cons b' gap =>
          obtain ⟨separates', blank'⟩ := blank.of_cons
          exact ⟨[c] :: word :: words,
            .cons .nil alone separates' (.cons blank' token separates others)⟩

end Spaced

/-- The words of a text are those that it is spaced out from, and there are no others. -/
theorem spaced_iff {words : List (List Char)} {text : List Char} :
    Spaced words text ↔ tokens text = words := by
  constructor
  · exact Spaced.tokens_eq
  · rintro rfl
    have some_words : ∃ words, Spaced words text := by
      induction text with
      | nil => exact ⟨[], .blanks .nil⟩
      | cons c rest ih =>
          obtain ⟨words, spaced⟩ := ih
          cases letter : isBlank c with
          | true => exact ⟨words, spaced.cons_blank letter⟩
          | false => exact spaced.exists_cons_letter letter
    obtain ⟨words, spaced⟩ := some_words
    rw [spaced.tokens_eq]
    exact spaced

end BinaryQuadratic.Text
