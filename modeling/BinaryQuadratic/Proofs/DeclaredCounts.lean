import BinaryQuadratic.Proofs.Loading

set_option autoImplicit false

/-! What the last header of an accepted text declares. The entries are counted from the beginning of the
text on, while the matrix holds those after the last header only; so the declaration is that of the
entries in the matrix just when none stands before the header. -/

namespace BinaryQuadratic

namespace Line

theorem Tells.unique {tokens : List (List Char)} {line other : Line} (tells : Tells tokens line)
    (again : Tells tokens other) : line = other := by
  cases tells with
  | blank =>
      cases again
      rfl
  | comment rest =>
      cases again with
      | comment => rfl
      | entry no_comment => exact absurd rfl no_comment
  | @header _ _ _ _ _ _ declared size_eq nodes_eq couplers_eq =>
      cases again with
      | @header _ _ _ _ _ _ found size_eq' nodes_eq' couplers_eq' =>
          obtain ⟨size, nodes, couplers, _⟩ := declared
          obtain ⟨size', nodes', couplers', _⟩ := found
          cases size_eq.symm.trans size_eq'
          cases nodes_eq.symm.trans nodes_eq'
          cases couplers_eq.symm.trans couplers_eq'
          rfl
      | entry no_comment no_header => exact absurd rfl no_header
  | entry no_comment no_header row_eq column_eq value_eq =>
      cases again with
      | comment => exact absurd rfl no_comment
      | header => exact absurd rfl no_header
      | entry _ _ row_eq' column_eq' value_eq' =>
          cases row_eq.symm.trans row_eq'
          cases column_eq.symm.trans column_eq'
          cases value_eq.symm.trans value_eq'
          rfl

theorem reads_rightUnique : Relator.RightUnique Reads := by
  rintro bytes line other ⟨text, decoded, tells⟩ ⟨text', decoded', tells'⟩
  cases decoded.symm.trans decoded'
  exact tells.unique tells'

/-! ### Entries before the last header -/

section Entries

variable {lines more : List Line}

theorem mem_entries {i j : Nat} {value : Binary64} :
    (i, j, value) ∈ entries lines ↔ .entry i j value ∈ lines := by
  unfold entries
  rw [List.mem_filterMap]
  constructor
  · rintro ⟨line, member, told⟩
    cases line with
    | silent => cases told
    | header declared => cases told
    | entry i' j' value' =>
        cases told
        exact member
  · intro member
    exact ⟨.entry i j value, member, rfl⟩

theorem entryCount_append (counts : Nat → Nat → Prop) [DecidableRel counts] (lines more : List Line) :
    entryCount counts (lines ++ more) = entryCount counts lines + entryCount counts more := by
  unfold entryCount entries
  rw [List.filterMap_append, List.countP_append]

theorem Placed.of_append (placed : Placed (lines ++ more)) : Placed lines := by
  rintro before i j value after rfl
  refine placed before i j value (after ++ more) ?_
  rw [List.append_assoc, List.cons_append]

theorem Placed.exists_admits (placed : Placed lines) {i j : Nat} {value : Binary64}
    (member : (i, j, value) ∈ entries lines) :
    ∃ before after, lines = before ++ .entry i j value :: after ∧ Admits before i j := by
  obtain ⟨before, after, split⟩ := List.append_of_mem (mem_entries.mp member)
  exact ⟨before, after, split, placed before i j value after split⟩

theorem Placed.entries_eq_nil_iff (placed : Placed lines) :
    entries lines = [] ↔ entryCount (· = ·) lines = 0 ∧ entryCount (· < ·) lines = 0 := by
  constructor
  · intro empty
    unfold entryCount
    rw [empty]
    exact ⟨rfl, rfl⟩
  · rintro ⟨no_nodes, no_couplers⟩
    refine List.eq_nil_iff_forall_not_mem.mpr ?_
    rintro ⟨i, j, value⟩ member
    obtain ⟨_, _, _, ordered, _⟩ := placed.exists_admits member
    -- An entry on or above the diagonal is a node or a coupler.
    rcases Nat.eq_or_lt_of_le ordered with same | before
    · exact List.countP_eq_zero.mp no_nodes _ member (decide_eq_true same)
    · exact List.countP_eq_zero.mp no_couplers _ member (decide_eq_true before)

theorem Placed.entries_eq_nil_of_headless (placed : Placed lines)
    (headless : ∀ line ∈ lines, line.header? = none) : entries lines = [] := by
  refine List.eq_nil_iff_forall_not_mem.mpr ?_
  rintro ⟨i, j, value⟩ member
  obtain ⟨_, after, rfl, _, declared, _, ⟨before, rfl, _⟩, _⟩ := placed.exists_admits member
  have impossible := headless (.header declared) (by simp)
  cases impossible

end Entries

end Line

/-- The last header of a text, with the lines before it and those after it. -/
structure LastHeader (text : List UInt8) (before : List Line) (declared : Header)
    (after : List Line) : Prop where
  reads : List.Forall₂ Line.Reads (Text.lines text) (before ++ .header declared :: after)
  none_after : ∀ line ∈ after, line.header? = none

/-- An accepted text has a last header, and its matrix holds the entries after that. The header
declares as many nodes and couplers as there are in the whole text, which is as many as there are in
the matrix exactly if no entry stands before the header; and none does before the first one. -/
theorem declared_counts_of_load {text : List UInt8} {q : Qubo Binary64} (loads : load text = .ok q) :
    (∃ before declared after, LastHeader text before declared after) ∧
    ∀ before declared after, LastHeader text before declared after →
      Qubo.ofEntries declared.size (Line.entries after) = .ok q ∧
      declared.nodes = Line.entryCount (· = ·) before + Line.entryCount (· = ·) after ∧
      declared.couplers = Line.entryCount (· < ·) before + Line.entryCount (· < ·) after ∧
      ((declared.nodes = Line.entryCount (· = ·) after ∧
        declared.couplers = Line.entryCount (· < ·) after) ↔ Line.entries before = []) ∧
      ((∀ line ∈ before, line.header? = none) → Line.entries before = []) := by
  obtain ⟨lines, last, rest, file⟩ := exists_problemFile_of_load loads
  obtain ⟨q', loads', filled⟩ := file.exists_load_eq
  cases loads.symm.trans loads'
  obtain ⟨reads, in_place, headed, nodes_eq, couplers_eq⟩ := file
  constructor
  · obtain ⟨before, rfl, none_after⟩ := headed
    exact ⟨before, last, rest, reads, none_after⟩
  · rintro before declared after ⟨again, none_after⟩
    cases Line.reads_rightUnique.forall₂ reads again
    obtain ⟨rfl, rfl⟩ := headed.unique ⟨before, rfl, none_after⟩
    have header_counts : ∀ (counts : Nat → Nat → Prop) [DecidableRel counts],
        Line.entryCount counts (before ++ .header last :: rest) =
          Line.entryCount counts before + Line.entryCount counts rest :=
      fun counts _ => Line.entryCount_append counts before (.header last :: rest)
    rw [header_counts] at nodes_eq couplers_eq
    have placed_before : Line.Placed before := in_place.of_append
    refine ⟨filled, nodes_eq.symm, couplers_eq.symm, ?_, placed_before.entries_eq_nil_of_headless⟩
    rw [placed_before.entries_eq_nil_iff]
    omega

/-- The entry between the two headers is declared by the second one as well. -/
theorem declared_counts_of_load_with_two_headers :
    let text := "p qubo 0 1 1 0\n0 0 1\nc\np qubo 0 2 2 1\n0 0 1.5\n0 1 -2".toUTF8.toList
    ∃ q, load text = .ok q ∧ (∃ before declared after, LastHeader text before declared after) ∧
      ∀ before declared after, LastHeader text before declared after →
        Qubo.ofEntries declared.size (Line.entries after) = .ok q ∧
        declared.nodes = Line.entryCount (· = ·) before + Line.entryCount (· = ·) after ∧
        declared.couplers = Line.entryCount (· < ·) before + Line.entryCount (· < ·) after ∧
        ((declared.nodes = Line.entryCount (· = ·) after ∧
          declared.couplers = Line.entryCount (· < ·) after) ↔ Line.entries before = []) ∧
        ((∀ line ∈ before, line.header? = none) → Line.entries before = []) := by
  intro text
  have accepted : (load text).toOption.isSome = true := by decide +kernel
  cases loads : load text with
  | error failure =>
      rw [loads] at accepted
      cases accepted
  | ok q => exact ⟨q, rfl, declared_counts_of_load loads⟩

/-- One node is declared by the last header of an accepted text, and no entry follows it. -/
theorem exists_load_without_declared_node :
    let text := "p qubo 0 1 1 0\n0 0 1\np qubo 0 1 1 0\n".toUTF8.toList
    ∃ q before declared after, load text = .ok q ∧ LastHeader text before declared after ∧
      declared.nodes ≠ Line.entryCount (· = ·) after := by
  intro text
  have accepted : (load text).toOption.isSome = true := by decide +kernel
  let declared : Header := ⟨1, 1, 0, by decide⟩
  let header := "p qubo 0 1 1 0".toUTF8.toList
  have header_reads : Line.Reads header (.header declared) := by
    have tokens_eq : Text.tokens "p qubo 0 1 1 0".toList =
        [['p'], ['q', 'u', 'b', 'o'], ['0'], ['1'], ['1'], ['0']] := by decide
    refine ⟨"p qubo 0 1 1 0".toList, by decide +kernel, ?_⟩
    rw [tokens_eq]
    exact .header rfl rfl rfl
  have entry_reads : Line.Reads "0 0 1".toUTF8.toList (.entry 0 0 (.ofNat 1)) := by
    have tokens_eq : Text.tokens "0 0 1".toList = [['0'], ['0'], ['1']] := by decide
    refine ⟨"0 0 1".toList, by decide +kernel, ?_⟩
    rw [tokens_eq]
    exact .entry (by decide) (by decide) rfl rfl (by decide +kernel)
  have lines_eq : Text.lines text = [header, "0 0 1".toUTF8.toList, header] := by decide +kernel
  have last : LastHeader text [.header declared, .entry 0 0 (.ofNat 1)] declared [] := by
    refine ⟨?_, by simp⟩
    rw [lines_eq]
    exact .cons header_reads (.cons entry_reads (.cons header_reads .nil))
  cases loads : load text with
  | error failure =>
      rw [loads] at accepted
      cases accepted
  | ok q => exact ⟨q, _, declared, _, rfl, last, by decide⟩

end BinaryQuadratic
