import BinaryQuadratic.Proofs.LineEnds

set_option autoImplicit false

/-! Texts in UTF-8. A line of bytes decodes to the characters it was encoded from, and as no other
character has the byte of a line feed in its code, texts joined by line feeds are cut apart again. -/

namespace BinaryQuadratic.Text

def bytes (text : String) : List UInt8 := text.toUTF8.data.toList

variable {text : String}

theorem bytes_append (text more : String) : bytes (text ++ more) = bytes text ++ bytes more := by
  unfold bytes
  rw [String.toUTF8, String.toByteArray_append]
  exact ByteArray.toList_data_append

theorem bytes_eq_flatMap (text : String) :
    bytes text = text.toList.flatMap String.utf8EncodeChar := by
  have encoded : text.toUTF8 = text.toList.utf8Encode := by
    rw [← String.toByteArray_ofList, String.ofList_toList]
    rfl
  unfold bytes
  rw [encoded, List.utf8Encode, List.data_toByteArray]

theorem decode?_bytes (text : String) : decode? (bytes text) = some text.toList := by
  have valid : text.toUTF8.IsValidUTF8 := text.isValidUTF8
  have reads : String.fromUTF8? text.toUTF8 = some text := dif_pos valid
  unfold decode? bytes
  rw [Array.toArray_toList, reads]
  rfl

theorem bytes_inj {more : String} (same : bytes text = bytes more) : text = more := by
  have decoded := congrArg decode? same
  rw [decode?_bytes, decode?_bytes] at decoded
  exact String.toList_inj.mp (Option.some.inj decoded)

theorem exists_bytes_eq_of_decode? {line : List UInt8} {chars : List Char}
    (decoded : decode? line = some chars) : ∃ text, bytes text = line := by
  unfold decode? String.fromUTF8? at decoded
  by_cases valid : (ByteArray.mk line.toArray).IsValidUTF8
  · exact ⟨String.fromUTF8 ⟨line.toArray⟩ valid, rfl⟩
  · rw [dif_neg valid] at decoded
    cases decoded

theorem eq_ten_of_lineFeed_eq {value : Nat} (small : value < 256)
    (same : lineFeed = UInt8.ofNat value) : value = 10 := by
  have values := congrArg UInt8.toNat same
  rw [UInt8.toNat_ofNat_of_lt' small] at values
  exact values.symm

theorem eq_of_lineFeed_mem {c : Char} (member : lineFeed ∈ String.utf8EncodeChar c) : c = '\n' := by
  -- Every byte of a code that has more than one is at least 128.
  have high : ∀ value, 128 ≤ value → value < 256 → lineFeed ≠ UInt8.ofNat value := by
    intro value large small same
    have ten := eq_ten_of_lineFeed_eq small same
    omega
  unfold String.utf8EncodeChar at member
  dsimp only at member
  split at member
  · have value := eq_ten_of_lineFeed_eq (by omega) (List.mem_singleton.mp member)
    exact Char.ext (UInt32.toNat_inj.mp value)
  · split at member
    · simp only [List.mem_cons, List.not_mem_nil, or_false] at member
      rcases member with same | same <;> exact absurd same (high _ (by omega) (by omega))
    · split at member
      · simp only [List.mem_cons, List.not_mem_nil, or_false] at member
        rcases member with same | same | same <;>
          exact absurd same (high _ (by omega) (by omega))
      · simp only [List.mem_cons, List.not_mem_nil, or_false] at member
        rcases member with same | same | same | same <;>
          exact absurd same (high _ (by omega) (by omega))

theorem lineFeed_not_mem_bytes (none : '\n' ∉ text.toList) : lineFeed ∉ bytes text := by
  rw [bytes_eq_flatMap]
  intro member
  obtain ⟨c, inside, code⟩ := List.mem_flatMap.mp member
  rw [eq_of_lineFeed_mem code] at inside
  exact none inside

theorem lineFeed_mem_bytes (member : '\n' ∈ text.toList) : lineFeed ∈ bytes text := by
  rw [bytes_eq_flatMap]
  exact List.mem_flatMap.mpr ⟨'\n', member, by decide⟩

theorem pieces_of_lineFeed_not_mem {line : List UInt8} (none : lineFeed ∉ line) :
    pieces line = [line] := by
  induction line with
  | nil => rfl
  | cons byte rest ih =>
      have first : ¬byte = lineFeed := fun same => none (same ▸ List.mem_cons_self)
      rw [pieces_cons, ih fun member => none (List.mem_cons_of_mem byte member)]
      exact if_neg first

theorem pieces_intercalate {first : String} {rest : List String}
    (each : ∀ text ∈ first :: rest, '\n' ∉ text.toList) :
    pieces (bytes ("\n".intercalate (first :: rest))) = (first :: rest).map bytes := by
  induction rest generalizing first with
  | nil =>
      rw [String.intercalate_singleton]
      exact pieces_of_lineFeed_not_mem (lineFeed_not_mem_bytes (each first List.mem_cons_self))
  | cons next more ih =>
      have others := ih fun text member => each text (List.mem_cons_of_mem first member)
      have cut : bytes (first ++ "\n" ++ "\n".intercalate (next :: more)) =
          bytes first ++ lineFeed :: bytes ("\n".intercalate (next :: more)) := by
        rw [String.append_assoc, bytes_append, bytes_append]
        rfl
      rw [String.intercalate_cons_cons, cut, pieces_append_lineFeed, others,
        pieces_of_lineFeed_not_mem (lineFeed_not_mem_bytes (each first List.mem_cons_self))]
      rfl

/-- A final line feed starts no further line. -/
theorem lines_intercalate {first : String} {rest : List String} (ended : Bool)
    (each : ∀ text ∈ first :: rest, text ≠ "" ∧ '\n' ∉ text.toList) :
    lines (bytes ("\n".intercalate (first :: rest) ++ if ended then "\n" else "")) =
      (first :: rest).map bytes := by
  have cut := pieces_intercalate fun text member => (each text member).2
  cases ended with
  | true =>
      have feed : bytes "\n" = [lineFeed] := rfl
      rw [if_pos rfl, bytes_append, feed, lines_append_lineFeed, cut]
      exact List.append_nil _
  | false =>
      rw [if_neg Bool.false_ne_true, String.append_empty]
      unfold lines
      rw [cut]
      apply if_neg
      intro unfinished
      obtain ⟨text, member, empty⟩ := List.mem_map.mp (List.mem_of_getLast? unfinished)
      have none : bytes "" = [] := rfl
      rw [← none] at empty
      exact (each text member).1 (bytes_inj empty)

end BinaryQuadratic.Text
