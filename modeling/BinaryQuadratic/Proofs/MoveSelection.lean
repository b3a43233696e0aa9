import Mathlib.Data.List.Induction
import BinaryQuadratic.Proofs.MachineNumbers
import BinaryQuadratic.Proofs.Progression
import BinaryQuadratic.Random.KeyStream

set_option autoImplicit false

/-! Which variable an iteration moves. The order that it looks through need not be sorted any more, so
all is said of an arbitrary rearrangement of the variables and of those in it that are free. -/

namespace BinaryQuadratic

/-- `v` is in the list, all before it are less, and none after it is greater. -/
def FirstGreatest {β α : Type} [LT α] [LE α] (value : β → α) (items : List β) (v : β) : Prop :=
  ∃ passed rest, items = passed ++ v :: rest ∧ (∀ u ∈ passed, value u < value v) ∧
    ∀ u ∈ rest, value u ≤ value v

/-- `v` is the first in the list that is `chosen`, and `passed` is what stands before it. -/
def FirstOf {β : Type} (chosen : β → Prop) (passed : List β) (items : List β) (v : β) : Prop :=
  (∃ rest, items = passed ++ v :: rest) ∧ chosen v ∧ ∀ u ∈ passed, ¬chosen u

namespace SearchState

section Scans

variable {α : Type} [Coefficient α] {q : Qubo α} {n : Nat}

/-- The variables that are not forbidden, in the order of the last ranking. -/
def free (s : SearchState q n) : List (Fin n) := s.order.filter fun v => !s.tabu.forbids v

def Beats (s : SearchState q n) (v : Fin n) : Prop :=
  s.bestEnergy < candidate s.walk.current v

/-- A scan ends at the first free variable that beats the best, or it goes through all free ones. -/
theorem scanned_spec (s : SearchState q n) :
    (∃ passed v, FirstOf s.Beats passed s.free v ∧
      s.scanned = .improving v ⟨s.walk.effort.total + (passed.length + 1)⟩) ∨
    ((∀ v ∈ s.free, ¬s.Beats v) ∧
      s.scanned = .exhausted (nearest s.walk.current none s.free)
        ⟨s.walk.effort.total + s.free.length⟩) := by
  rcases scan_spec s.tabu s.walk.current s.bestEnergy s.order none s.walk.effort with
    ⟨passed, v, listed, beats, misses, ends⟩ | ⟨misses, ends⟩
  · obtain ⟨rest, split⟩ := examined_isPrefix s.tabu s.walk.current s.bestEnergy s.order
    rw [listed, List.append_assoc] at split
    rw [listed, List.length_append] at ends
    exact Or.inl ⟨passed, v, ⟨⟨rest, split.symm⟩, beats, misses⟩, ends⟩
  · have all : examined s.tabu s.walk.current s.bestEnergy s.order = s.free :=
      examined_eq_filter misses
    rw [all] at misses ends
    exact Or.inr ⟨misses, ends⟩

end Scans

theorem nearest_firstGreatest {q : Qubo Binary64} {n : Nat} (current : Tracked q n)
    {items : List (Fin n)} (numbers : ∀ v ∈ items, (candidate current v).isNaN = false)
    (some_item : items ≠ []) :
    ∃ v, nearest current none items = some (v, candidate current v) ∧
      FirstGreatest (candidate current) items v := by
  induction items using List.reverseRecOn with
  | nil => exact absurd rfl some_item
  | append_singleton before u ih =>
      have last : nearest current none (before ++ [u]) =
          nearer (nearest current none before) u (candidate current u) := List.foldl_append ..
      by_cases empty : before = []
      · subst empty
        exact ⟨u, rfl, [], [], rfl, fun w member => absurd member List.not_mem_nil,
          fun w member => absurd member List.not_mem_nil⟩
      · obtain ⟨v, held, passed, rest, split, less, at_most⟩ :=
          ih (fun w member => numbers w (List.mem_append_left _ member)) empty
        rw [last, held]
        unfold nearer
        by_cases more : candidate current v < candidate current u
        · refine ⟨u, if_pos more, before, [], rfl, ?_, fun w member => absurd member List.not_mem_nil⟩
          intro w member
          rw [split, List.mem_append, List.mem_cons] at member
          rcases member with first | same | later
          · exact Binary64.lt_trans (less w first) more
          · rw [same]
            exact more
          · exact Binary64.lt_of_le_of_lt (at_most w later) more
        · have v_member : v ∈ before := by
            rw [split]
            exact List.mem_append_right passed List.mem_cons_self
          have u_at_most : candidate current u ≤ candidate current v :=
            Binary64.le_of_not_lt (numbers u (List.mem_append_right before List.mem_cons_self))
              (numbers v (List.mem_append_left _ v_member)) more
          refine ⟨v, if_neg more, passed, rest ++ [u], ?_, less, ?_⟩
          · rw [split, List.append_assoc, List.cons_append]
          · intro w member
            rcases List.mem_append.mp member with inside | same
            · exact at_most w inside
            · rw [List.mem_singleton.mp same]
              exact u_at_most

/-- What the scan of an iteration comes to. Each free variable that it looks at is one unit of
effort. -/
structure Selects {q : Qubo Binary64} {n : Nat} (s : SearchState q n) : Prop where
  improving : (∃ v ∈ s.free, s.Beats v) → ∃ passed v, FirstOf s.Beats passed s.free v ∧
    s.scanned = .improving v ⟨s.walk.effort.total + (passed.length + 1)⟩
  diverting : (∀ v ∈ s.free, ¬s.Beats v) → s.free ≠ [] →
    ∃ v, FirstGreatest (candidate s.walk.current) s.free v ∧
      s.scanned = .exhausted (some (v, candidate s.walk.current v))
        ⟨s.walk.effort.total + s.free.length⟩
  idle : s.free = [] → s.scanned = .exhausted none s.walk.effort

theorem selects {q : Qubo Binary64} {n : Nat} (s : SearchState q n)
    (numbers : ∀ v ∈ s.free, (candidate s.walk.current v).isNaN = false) : s.Selects := by
  rcases s.scanned_spec with ⟨passed, v, first, ends⟩ | ⟨misses, ends⟩
  · obtain ⟨⟨rest, split⟩, beats, _⟩ := id first
    have member : v ∈ s.free := by
      rw [split]
      exact List.mem_append_right passed List.mem_cons_self
    refine ⟨fun _ => ⟨passed, v, first, ends⟩, fun misses => absurd beats (misses v member), ?_⟩
    intro empty
    rw [empty] at member
    cases member
  · refine ⟨?_, ?_, ?_⟩
    · rintro ⟨v, member, beats⟩
      exact absurd beats (misses v member)
    · intro _ some_free
      obtain ⟨v, held, first⟩ := nearest_firstGreatest s.walk.current numbers some_free
      rw [held] at ends
      exact ⟨v, first, ends⟩
    · intro empty
      rw [empty] at ends
      exact ends

/-! ### What a selection does -/

section Iterations

variable {α γ : Type} [Coefficient α] [Generator γ] {q : Qubo α} {n : Nat} {limits : Limits}
  {target : Option (Target α)} {s s' : SearchState q n} {g g' : γ}

/-- What an iteration does with what its scan has found: toggle it and climb from there, toggle it
alone, or toggle nothing. -/
structure Commits (limits : Limits) (s s' : SearchState q n) (g : γ) : Prop where
  improving : ∀ v left, s.scanned = .improving v left → s'.moves = s.moves + 1 ∧
    ∃ g₁, Walk.climb limits ⟨s.walk.current.flip v, left⟩ g = some (.ok s'.walk, g₁)
  diverting : ∀ v energy left, s.scanned = .exhausted (some (v, energy)) left →
    s'.moves = s.moves + 1 ∧ s'.walk = ⟨s.walk.current.flip v, left⟩
  idle : ∀ left, s.scanned = .exhausted none left → s'.moves = s.moves ∧ s'.walk = s.walk

theorem commits_of_improving {v : Fin n} {left : Effort} {g₁ : γ}
    (found : s.scanned = .improving v left)
    (climbs : Walk.climb limits ⟨s.walk.current.flip v, left⟩ g = some (.ok s'.walk, g₁))
    (moves_eq : s'.moves = s.moves + 1) : Commits limits s s' g := by
  constructor
  · intro u left' found'
    cases found.symm.trans found'
    exact ⟨moves_eq, g₁, climbs⟩
  · intro u energy left' found'
    cases found.symm.trans found'
  · intro left' found'
    cases found.symm.trans found'

theorem Iterates.commits (step : Iterates limits target s g s' g') : Commits limits s s' g := by
  cases step with
  | reaches found counted climbs met => exact commits_of_improving found climbs rfl
  | improves found counted climbs unmet bounded => exact commits_of_improving found climbs rfl
  | diverts found counted =>
      constructor
      · intro v left found'
        cases found.symm.trans found'
      · intro v energy left found'
        cases found.symm.trans found'
        exact ⟨rfl, rfl⟩
      · intro left found'
        cases found.symm.trans found'
  | idles found =>
      constructor
      · intro v left found'
        cases found.symm.trans found'
      · intro v energy left found'
        cases found.symm.trans found'
      · intro left _
        exact ⟨rfl, rfl⟩

/-- An iteration with a free variable moves one, whatever the energies are. -/
theorem Iterates.moves_eq (step : Iterates limits target s g s' g') :
    s'.moves = s.moves + if !s.free.isEmpty then 1 else 0 := by
  have commits := step.commits
  rcases s.scanned_spec with ⟨passed, v, ⟨⟨rest, split⟩, _⟩, ends⟩ | ⟨_, ends⟩
  · have some_free : (!s.free.isEmpty) = true := by
      rw [split]
      cases passed <;> rfl
    rw [if_pos some_free]
    exact (commits.improving v _ ends).1
  · cases free_eq : s.free with
    | nil =>
        rw [free_eq] at ends
        exact (commits.idle _ ends).1
    | cons v rest =>
        cases held : nearest s.walk.current none s.free with
        | none =>
            rw [nearest_eq_none_iff, free_eq] at held
            cases held
        | some most =>
            rw [held] at ends
            exact (commits.diverting most.1 most.2 _ ends).1

/-- Records after the first are made by moves, and a move takes an iteration and some effort. The
effort bounds the moves by a word, so the count of iterations stays ahead of them where it stops. -/
structure Tallied (s : SearchState q n) : Prop where
  records : s.trace.length ≤ s.moves + 1
  counted : s.moves ≤ s.iterations
  spent : s.moves ≤ s.walk.effort.total
  within : s.walk.effort.total ≤ greatestWord

theorem Tallied.iterates (tallied : s.Tallied) (step : Iterates limits target s g s' g') :
    s'.Tallied := by
  obtain ⟨records, counted, spent, within⟩ := tallied
  have improving : ∀ {v : Fin n} {left : Effort} {walk : Walk q n} {g₁ : γ},
      s.scanned = .improving v left →
      Walk.climb limits ⟨s.walk.current.flip v, left⟩ g = some (.ok walk, g₁) →
      (s.trace ++ [walk.current.energy]).length ≤ s.moves + 1 + 1 ∧
        s.moves + 1 ≤ min (s.iterations + 1) greatestWord ∧
        s.moves + 1 ≤ walk.effort.total ∧ walk.effort.total ≤ greatestWord := by
    intro v left walk g₁ found climbs
    have started := total_lt_of_improving found
    obtain ⟨onward, below⟩ := Walk.total_of_climb climbs
    dsimp only at onward
    refine ⟨?_, ?_, by omega, below⟩
    · rw [List.length_append, List.length_singleton]
      omega
    · apply Nat.le_min.mpr
      omega
  cases step with
  | reaches found counted climbs met =>
      obtain ⟨records, counted, spent, within⟩ := improving found climbs
      exact ⟨records, counted, spent, within⟩
  | improves found counted climbs unmet bounded =>
      obtain ⟨records, counted, spent, within⟩ := improving found climbs
      exact ⟨records, counted, spent, within⟩
  | @diverts v energy left found checked =>
      have started := total_lt_of_exhausted found
      have below : left.total ≤ greatestWord := (Effort.checked_eq_ok_iff left).mp checked
      refine ⟨Nat.le_succ_of_le records, ?_, ?_, below⟩
      · change s.moves + 1 ≤ min (s.iterations + 1) greatestWord
        apply Nat.le_min.mpr
        omega
      · change s.moves + 1 ≤ left.total
        omega
  | idles found =>
      refine ⟨records, ?_, spent, within⟩
      change s.moves ≤ min (min (s.iterations + 1) greatestWord + _) greatestWord
      apply Nat.le_min.mpr
      omega

theorem Iterates.perm_order (step : Iterates limits target s g s' g')
    (perm : s.order.Perm (List.finRange n)) : s'.order.Perm (List.finRange n) := by
  cases step with
  | reaches found counted climbs met => exact perm_insertionSort _ _
  | improves found counted climbs unmet bounded => exact perm_insertionSort _ _
  | diverts found counted => exact perm
  | idles found => exact perm

theorem perm_order_of_leads {a b : SearchState q n × γ} (path : Leads limits target a b)
    (perm : a.1.order.Perm (List.finRange n)) : b.1.order.Perm (List.finRange n) := by
  induction path with
  | refl => exact perm
  | tail _ proceeds ih => exact (Proceeds.iterates proceeds).perm_order ih

end Iterations

end SearchState

namespace TabuSearch

theorem Heads.perm_order {α γ : Type} [Coefficient α] [Generator γ] {q : Qubo α} {n : Nat}
    {p : TabuSearch α} {limits : Limits} {fits : n ≤ q.size} {x : Assignment n} {effort : Effort}
    {ceiling : Nat} {g : γ} {head : SearchState q n × γ}
    (starts : p.Heads limits fits x effort ceiling g head) :
    head.1.order.Perm (List.finRange n) := by
  obtain ⟨_, walk, g₀, _, path⟩ := starts
  exact SearchState.perm_order_of_leads path (perm_insertionSort _ _)

variable {γ : Type} [Generator γ] {q : Qubo Binary64} {n : Nat}

/-- The order is always a rearrangement of the variables. If no energy of a free variable is not a
number, an iteration moves the first free variable in the order that beats the best, or if there is
none, the first of those with the greatest energy, and nothing if none is free; its scan spends one
unit of effort for each free variable that it has looked at. A search that ends well counts as moves
the iterations that start with a free variable, which are no fewer than the records after the first
and no more than the iterations counted. -/
theorem selection_and_moves (p : TabuSearch Binary64) (limits : Limits) (fits : n ≤ q.size)
    (x : Assignment n) (effort : Effort) (ceiling : Nat) (g : γ) :
    (∀ head : SearchState q n × γ, p.Heads limits fits x effort ceiling g head →
      head.1.order.Perm (List.finRange n) ∧
      ((∀ v ∈ head.1.free,
          (SearchState.candidate head.1.walk.current v).isNaN = false) → head.1.Selects) ∧
      ∀ next : SearchState q n × γ, SearchState.Proceeds limits p.target head next →
        SearchState.Commits limits head.1 next.1 head.2) ∧
    ∀ found g', p.run limits q x effort ceiling g = some (.ok found, g') →
      found.outcome.bestTrace.length - 1 ≤ found.outcome.moves ∧
      found.outcome.moves ≤ found.outcome.iterations ∧
      (0 < n → ∃ heads : List (SearchState q n × γ), heads.Nodup ∧
        (∀ head, head ∈ heads ↔ p.Heads limits fits x effort ceiling g head) ∧
        found.outcome.moves = heads.countP fun head => !head.1.free.isEmpty) := by
  refine ⟨?_, ?_⟩
  · intro head starts
    refine ⟨starts.perm_order, head.1.selects, ?_⟩
    intro next proceeds
    exact (SearchState.Proceeds.iterates proceeds).commits
  · intro found g' ends
    obtain ⟨_, ⟨rfl, rfl, _⟩ | ⟨walk, g₀, last, climbs, path, finished, rfl⟩⟩ := course_of_run ends
    · exact ⟨Nat.le_refl 0, Nat.le_refl 0, fun some_variable => absurd some_variable (by decide)⟩
    · have first : (SearchState.ofWalk p ceiling walk).Tallied :=
        ⟨Nat.le_refl 1, Nat.zero_le _, Nat.zero_le _, (Walk.total_of_climb climbs).2⟩
      have tallied : last.Tallied := by
        refine path.preserves ?_ first
        intro s s' g g' tallied _ step
        exact tallied.iterates step
      refine ⟨Nat.sub_le_of_le_add tallied.records, tallied.counted, fun _ => ?_⟩
      obtain ⟨heads, distinct, members, counts⟩ := path.exists_befores finished
      refine ⟨heads, distinct, ?_, ?_⟩
      · intro head
        rw [members]
        constructor
        · rintro ⟨reached, goes⟩
          exact ⟨goes, walk, g₀, climbs, reached⟩
        · intro starts
          exact ⟨starts.leads climbs, starts.1⟩
      · have total := counts SearchState.moves (fun head => !head.1.free.isEmpty)
          fun a b _ proceeds => (SearchState.Proceeds.iterates proceeds).moves_eq
        have none_before : (SearchState.ofWalk p ceiling walk).moves = 0 := rfl
        rw [none_before, Nat.zero_add] at total
        exact total

theorem selection_and_moves_between_equals :
    let one := Binary64.ofNat 1
    let two := Binary64.ofNat 2
    let q : Qubo Binary64 := ⟨3, #v[-one, two, two, 0, -one, two, 0, 0, -one]⟩
    let fits : 3 ≤ q.size := by decide
    let p : TabuSearch Binary64 := ⟨2, none, 2⟩
    let limits := Limits.uniform 80
    let x := Assignment.allZero 3
    let g := KeyStream.ofSeed 6
    ∃ head next found g', p.Heads limits fits x Effort.zero 40 g head ∧ head.1.free = [1, 2] ∧
      (∀ v ∈ head.1.free, (SearchState.candidate head.1.walk.current v).isNaN = false) ∧
      FirstGreatest (SearchState.candidate head.1.walk.current) head.1.free 1 ∧
      SearchState.Proceeds limits p.target head next ∧
      next.1.walk = ⟨head.1.walk.current.flip 1, ⟨8⟩⟩ ∧
      p.run limits q x Effort.zero 40 g = some (.ok found, g') ∧
      [found.outcome.bestTrace.length, found.outcome.moves, found.outcome.iterations] =
        [2, 32, 40] ∧
      found.outcome.bestTrace.length - 1 ≤ found.outcome.moves ∧
      found.outcome.moves ≤ found.outcome.iterations := by
  intro one two q fits p limits x g
  have reported : ((p.headAfter limits fits x Effort.zero 40 1 g).map fun result =>
      result.1.toOption.map fun (_, head) =>
        (head.free, decide (∀ v ∈ head.free,
            (SearchState.candidate head.walk.current v).isNaN = false),
          (match head.scanned with | .exhausted (some (v, _)) left => some (v, left) | _ => none))) =
      some (some ([1, 2], true, some (1, ⟨8⟩))) := by
    decide +kernel
  have summed : ((p.run limits q x Effort.zero 40 g).map fun result =>
      result.1.toOption.map fun found =>
        [found.outcome.bestTrace.length, found.outcome.moves, found.outcome.iterations]) =
      some (some [2, 32, 40]) := by
    decide +kernel
  obtain ⟨⟨walk, head⟩, g₁, ends, values⟩ := Attempt.exists_ok_of_report reported
  obtain ⟨found, g', returned, counts⟩ := Attempt.exists_ok_of_report summed
  obtain ⟨g₀, climbs, starts⟩ := heads_of_headAfter ends
  obtain ⟨free_eq, rest⟩ := Prod.mk.inj values
  obtain ⟨all_numbers, picked⟩ := Prod.mk.inj rest
  have numbers := of_decide_eq_true all_numbers
  obtain ⟨selection, outcome⟩ := selection_and_moves p limits fits x Effort.zero 40 g
  obtain ⟨_, selects, commits⟩ := selection (head, g₁) starts
  obtain ⟨few, most, _⟩ := outcome found g' returned
  obtain ⟨_, ⟨empty, _⟩ | ⟨walk', g₂, last, climbs', path, finished, _⟩⟩ := course_of_run returned
  · cases empty
  cases climbs.symm.trans climbs'
  obtain ⟨_, next, proceeds, _⟩ := starts.next climbs path finished
  cases scanned : head.scanned with
  | improving v left =>
      rw [scanned] at picked
      cases picked
  | exhausted nearest left =>
      cases nearest with
      | none =>
          rw [scanned] at picked
          cases picked
      | some held =>
          obtain ⟨v, energy⟩ := held
          rw [scanned] at picked
          cases picked
          have none_beats : ∀ v ∈ head.free, ¬head.Beats v := by
            intro v member beats
            obtain ⟨_, _, _, ends⟩ := (selects numbers).improving ⟨v, member, beats⟩
            cases scanned.symm.trans ends
          have some_free : head.free ≠ [] := by
            rw [free_eq]
            exact List.cons_ne_nil _ _
          obtain ⟨v, first, ends⟩ := (selects numbers).diverting none_beats some_free
          have same := scanned.symm.trans ends
          simp only [Scan.exhausted.injEq, Option.some.injEq, Prod.mk.injEq] at same
          rw [← same.1.1] at first
          obtain ⟨_, moved⟩ := (commits next proceeds).diverting 1 _ _ scanned
          exact ⟨(head, g₁), next, found, g', starts, free_eq, numbers, first, proceeds, moved,
            returned, counts, few, most⟩

end TabuSearch

end BinaryQuadratic
