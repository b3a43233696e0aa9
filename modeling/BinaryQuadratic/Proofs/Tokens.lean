import BinaryQuadratic.Text.Numeral
import BinaryQuadratic.Text.Token
import BinaryQuadratic.Word

set_option autoImplicit false

/-! Words that are put next to each other with blanks between them are found again. A whole number in
decimal digits is such a word and reads as itself; so is every text that reads as a fraction. -/

namespace BinaryQuadratic.Text

/-- No character of the text separates words. -/
def Solid (text : List Char) : Prop := ∀ c ∈ text, isBlank c = false

instance (text : List Char) : Decidable (Solid text) :=
  List.decidableBAll (fun c => isBlank c = false) text

structure IsToken (word : List Char) : Prop where
  nonempty : word ≠ []
  solid : Solid word

namespace Solid

variable {text more : List Char} {c : Char}

theorem nil : Solid [] := by
  intro c member
  cases member

theorem cons (first : isBlank c = false) (solid : Solid text) : Solid (c :: text) := by
  intro c' member
  cases member with
  | head => exact first
  | tail _ later => exact solid c' later

theorem append (solid : Solid text) (solid_more : Solid more) : Solid (text ++ more) := by
  intro c member
  rcases List.mem_append.mp member with left | right
  · exact solid c left
  · exact solid_more c right

theorem foldr_extendWord (solid : Solid text) (state : List Char × List (List Char)) :
    text.foldr extendWord state = (text ++ state.1, state.2) := by
  induction text with
  | nil => rfl
  | cons c rest ih =>
      have first : ¬isBlank c = true := ne_true_of_eq_false (solid c List.mem_cons_self)
      have others : Solid rest := fun c' later => solid c' (List.mem_cons_of_mem c later)
      rw [List.foldr_cons, ih others, extendWord, if_neg first]
      rfl

end Solid

namespace IsToken

variable {word : List Char}

theorem closeWord (token : IsToken word) (words : List (List Char)) :
    Text.closeWord (word, words) = word :: words := by
  cases word with
  | nil => exact absurd rfl token.nonempty
  | cons c rest => rfl

theorem tokens_eq (token : IsToken word) : tokens word = [word] := by
  unfold tokens
  rw [token.solid.foldr_extendWord, List.append_nil]
  exact token.closeWord []

theorem tokens_append_blank (token : IsToken word) (rest : List Char) :
    tokens (word ++ ' ' :: rest) = word :: tokens rest := by
  unfold tokens
  rw [List.foldr_append, token.solid.foldr_extendWord]
  change Text.closeWord (word ++ [], _) = _
  rw [List.append_nil]
  exact token.closeWord _

end IsToken

theorem tokens_intercalate {words : List (List Char)} (each : ∀ word ∈ words, IsToken word) :
    tokens ([' '].intercalate words) = words := by
  induction words with
  | nil => rfl
  | cons word rest ih =>
      have token := each word List.mem_cons_self
      cases rest with
      | nil =>
          rw [List.intercalate_singleton]
          exact token.tokens_eq
      | cons next more =>
          have others := ih fun later member => each later (List.mem_cons_of_mem word member)
          rw [List.intercalate_cons_cons, List.append_assoc, List.singleton_append,
            token.tokens_append_blank, others]

theorem mem_intercalate {words : List (List Char)} {c : Char}
    (member : c ∈ [' '].intercalate words) : c = ' ' ∨ ∃ word ∈ words, c ∈ word := by
  induction words with
  | nil => cases member
  | cons word rest ih =>
      cases rest with
      | nil =>
          rw [List.intercalate_singleton] at member
          exact .inr ⟨word, List.mem_cons_self, member⟩
      | cons next more =>
          rw [List.intercalate_cons_cons, List.append_assoc, List.singleton_append] at member
          rcases List.mem_append.mp member with first | later
          · exact .inr ⟨word, List.mem_cons_self, first⟩
          · rcases List.mem_cons.mp later with blank | others
            · exact .inl blank
            · rcases ih others with blank | ⟨found, listed, inside⟩
              · exact .inl blank
              · exact .inr ⟨found, List.mem_cons_of_mem word listed, inside⟩

/-! ### Digits -/

theorem isBlank_of_isDigit {c : Char} (digit : c.isDigit = true) : isBlank c = false := by
  have bounds : 48 ≤ c.toNat ∧ c.toNat ≤ 57 := Char.isDigit_iff_toNat.mp digit
  unfold isBlank
  simp only [Bool.or_eq_false_iff, Bool.and_eq_false_iff, decide_eq_false_iff_not]
  omega

theorem solid_of_digits {text : List Char} (digits : text.all Char.isDigit = true) : Solid text :=
  fun c member => isBlank_of_isDigit (List.all_eq_true.mp digits c member)

theorem natural?_of_digits {digits : List Char} (some_digit : digits ≠ [])
    (all_digits : digits.all Char.isDigit = true) (few : digitsValue digits ≤ greatestWord) :
    natural? digits = some (digitsValue digits) := by
  have word : digitsValue digits < 0x10000000000000000 := Nat.lt_succ_of_le few
  have unsigned : ∀ rest, digits = '+' :: rest → False := by
    rintro rest rfl
    cases all_digits
  simp only [natural?]
  rw [if_pos ⟨some_digit, all_digits⟩]
  exact if_pos word

section Printed

variable (count : Nat)

theorem all_isDigit_toDigits : (Nat.toDigits 10 count).all Char.isDigit = true :=
  List.all_eq_true.mpr fun _ member => Nat.isDigit_of_mem_toDigits (by decide) (by decide) member

theorem isToken_toDigits : IsToken (Nat.toDigits 10 count) :=
  ⟨Nat.toDigits_ne_nil, solid_of_digits (all_isDigit_toDigits count)⟩

theorem natural?_toDigits (few : count ≤ greatestWord) :
    natural? (Nat.toDigits 10 count) = some count := by
  have value : digitsValue (Nat.toDigits 10 count) = count := Nat.ofDigitChars_ten_toDigits
  have reads := natural?_of_digits Nat.toDigits_ne_nil (all_isDigit_toDigits count)
  rw [value] at reads
  exact reads few

end Printed

section Read

variable {negative : Bool} {text : List Char} {value : Binary64}

theorem solid_of_splitSign (solid : Solid (splitSign text).2) : Solid text := by
  unfold splitSign at solid
  split at solid
  · exact solid.cons (by decide)
  · exact solid.cons (by decide)
  · exact solid

theorem solid_of_exponent? {exponent : Int} (reads : exponent? text = some exponent) : Solid text := by
  apply solid_of_splitSign
  unfold exponent? at reads
  by_cases digits : (splitSign text).2 ≠ [] ∧ (splitSign text).2.all Char.isDigit
  · exact solid_of_digits digits.2
  · dsimp only at reads
    rw [if_neg digits] at reads
    cases reads

theorem solid_of_exponentPart? {exponent : Int} (reads : exponentPart? text = some exponent) :
    Solid text := by
  cases text with
  | nil => exact .nil
  | cons c rest =>
      change (if c = 'e' ∨ c = 'E' then exponent? rest else none) = _ at reads
      by_cases letter : c = 'e' ∨ c = 'E'
      · rw [if_pos letter] at reads
        apply (solid_of_exponent? reads).cons
        rcases letter with rfl | rfl
        · decide
        · decide
      · rw [if_neg letter] at reads
        cases reads

theorem solid_takeWhile_isDigit (text : List Char) : Solid (text.takeWhile Char.isDigit) :=
  solid_of_digits List.all_takeWhile

theorem solid_of_fraction? (reads : fraction? negative text = some value) : Solid text := by
  rw [← List.takeWhile_append_dropWhile (p := Char.isDigit) (l := text)]
  apply (solid_takeWhile_isDigit text).append
  unfold fraction? at reads
  split at reads
  rename_i places rest parts
  dsimp only at reads
  split at reads
  · cases reads
  · obtain ⟨exponent, exponent_reads, _⟩ := Option.bind_eq_some_iff.mp reads
    have solid_rest := solid_of_exponentPart? exponent_reads
    split at parts
    · rename_i after point
      cases parts
      rw [point]
      apply Solid.cons (by decide)
      rw [← List.takeWhile_append_dropWhile (p := Char.isDigit) (l := after)]
      exact (solid_takeWhile_isDigit after).append solid_rest
    · cases parts
      exact solid_rest

theorem toLower_of_isBlank {c : Char} (blank : isBlank c = true) : c.toLower = c := by
  apply dif_neg
  intro capital
  have bounds : 65 ≤ c.toNat ∧ c.toNat ≤ 90 := capital
  unfold isBlank at blank
  simp only [Bool.or_eq_true, Bool.and_eq_true, decide_eq_true_eq] at blank
  omega

theorem solid_of_word? (reads : word? negative text = some value) : Solid text := by
  intro c member
  have lower : c.toLower ∈ text.map Char.toLower := List.mem_map_of_mem member
  have letters : Solid (text.map Char.toLower) := by
    unfold word? at reads
    dsimp only at reads
    split at reads
    · rename_i infinite
      rcases infinite with short | long
      · rw [short]
        decide
      · rw [long]
        decide
    · split at reads
      · rename_i not_a_number
        rw [not_a_number]
        decide
      · cases reads
  cases blank : isBlank c with
  | false => rfl
  | true =>
      rw [← toLower_of_isBlank blank, letters _ lower] at blank
      cases blank

theorem isToken_of_decimal? (reads : decimal? text = some value) : IsToken text := by
  constructor
  · rintro rfl
    cases reads
  · apply solid_of_splitSign
    unfold decimal? at reads
    dsimp only at reads
    cases fraction : fraction? (splitSign text).1 (splitSign text).2 with
    | some found => exact solid_of_fraction? fraction
    | none =>
        rw [fraction] at reads
        exact solid_of_word? reads

end Read

end BinaryQuadratic.Text
