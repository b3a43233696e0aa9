import BinaryQuadratic.Text.Token

set_option autoImplicit false

/-! Where a text is cut into lines. A line feed ends a line whatever follows, so the lines before it
and those after it are found apart. -/

namespace BinaryQuadratic.Text

theorem pieces_cons (byte : UInt8) (bytes : List UInt8) :
    pieces (byte :: bytes) = extendLine byte (pieces bytes) := rfl

theorem pieces_ne_nil (bytes : List UInt8) : pieces bytes ≠ [] := by
  cases bytes with
  | nil => exact List.cons_ne_nil [] []
  | cons byte rest =>
      rw [pieces_cons]
      unfold extendLine
      split
      · exact List.cons_ne_nil [] _
      · split
        · exact List.cons_ne_nil [byte] []
        · exact List.cons_ne_nil _ _

theorem extendLine_append {byte : UInt8} {front : List (List UInt8)} (some_piece : front ≠ [])
    (rest : List (List UInt8)) :
    extendLine byte (front ++ rest) = extendLine byte front ++ rest := by
  unfold extendLine
  by_cases ends : byte = lineFeed
  · rw [if_pos ends, if_pos ends]
    rfl
  · cases front with
    | nil => exact absurd rfl some_piece
    | cons line more =>
        rw [if_neg ends, if_neg ends]
        rfl

theorem pieces_append_lineFeed (head after : List UInt8) :
    pieces (head ++ lineFeed :: after) = pieces head ++ pieces after := by
  induction head with
  | nil => rfl
  | cons byte rest ih =>
      rw [List.cons_append, pieces_cons, ih, extendLine_append (pieces_ne_nil rest), pieces_cons]

theorem length_extendLine {byte : UInt8} {front : List (List UInt8)} (some_piece : front ≠ []) :
    (extendLine byte front).length = front.length + if byte = lineFeed then 1 else 0 := by
  unfold extendLine
  by_cases ends : byte = lineFeed
  · rw [if_pos ends, if_pos ends]
    rfl
  · cases front with
    | nil => exact absurd rfl some_piece
    | cons line more =>
        rw [if_neg ends, if_neg ends]
        rfl

theorem length_pieces (bytes : List UInt8) :
    (pieces bytes).length = bytes.count lineFeed + 1 := by
  induction bytes with
  | nil => rfl
  | cons byte rest ih =>
      rw [pieces_cons, length_extendLine (pieces_ne_nil rest), ih, List.count_cons]
      simp only [beq_iff_eq]
      omega

/-- The lines up to a line feed are the pieces before it, the empty ones among them. -/
theorem lines_append_lineFeed (head after : List UInt8) :
    lines (head ++ lineFeed :: after) = pieces head ++ lines after := by
  have last_eq : (pieces head ++ pieces after).getLast? = (pieces after).getLast? := by
    rw [List.getLast?_append, List.getLast?_eq_some_getLast (pieces_ne_nil after), Option.some_or]
  unfold lines
  simp only [pieces_append_lineFeed, last_eq]
  by_cases unfinished : (pieces after).getLast? = some []
  · rw [if_pos unfinished, if_pos unfinished, List.dropLast_append_of_ne_nil (pieces_ne_nil after)]
  · rw [if_neg unfinished, if_neg unfinished]

theorem pieces_eq_splitOn (bytes : List UInt8) : pieces bytes = bytes.splitOn lineFeed := by
  induction bytes with
  | nil => rfl
  | cons byte rest ih =>
      rw [pieces_cons, ih, List.splitOn_cons_eq_if_modifyHead]
      unfold extendLine
      by_cases ends : byte = lineFeed
      · rw [if_pos ends, if_pos (beq_iff_eq.mpr ends)]
      · rw [if_neg ends, if_neg (mt beq_iff_eq.mp ends)]
        cases found : rest.splitOn lineFeed with
        | nil => exact absurd found (List.splitOn_ne_nil lineFeed rest)
        | cons line more => rfl

theorem pieces_inj {bytes more : List UInt8} (same : pieces bytes = pieces more) : bytes = more := by
  rw [pieces_eq_splitOn, pieces_eq_splitOn] at same
  have joined := congrArg ([lineFeed].intercalate ·) same
  simp only [List.intercalate_splitOn] at joined
  exact joined

theorem lineFeed_not_mem_of_mem_pieces {bytes line : List UInt8} (member : line ∈ pieces bytes) :
    lineFeed ∉ line := by
  induction bytes generalizing line with
  | nil =>
      rw [List.mem_singleton.mp member]
      exact List.not_mem_nil
  | cons byte rest ih =>
      rw [pieces_cons] at member
      unfold extendLine at member
      by_cases ends : byte = lineFeed
      · rw [if_pos ends] at member
        rcases List.mem_cons.mp member with empty | later
        · rw [empty]
          exact List.not_mem_nil
        · exact ih later
      · rw [if_neg ends] at member
        cases found : pieces rest with
        | nil => exact absurd found (pieces_ne_nil rest)
        | cons first more =>
            rw [found] at member ih
            rcases List.mem_cons.mp member with longer | later
            · rw [longer]
              intro inside
              rcases List.mem_cons.mp inside with here | further
              · exact ends here.symm
              · exact ih List.mem_cons_self further
            · exact ih (List.mem_cons_of_mem first later)

end BinaryQuadratic.Text
