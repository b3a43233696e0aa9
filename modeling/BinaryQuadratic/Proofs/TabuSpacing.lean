import BinaryQuadratic.Proofs.LastSweep
import BinaryQuadratic.Proofs.MoveSelection
import BinaryQuadratic.Random.KeyStream

set_option autoImplicit false

/-! How far apart the moves of one variable are. From the iteration that moves it, its countdown and
the count of iterations run against each other: their sum stays where the move has put it, until the
variable is moved again. -/

namespace BinaryQuadratic

variable {α γ : Type} [Coefficient α] [Generator γ] {q : Qubo α} {n : Nat}

namespace SearchState

variable {limits : Limits} {target : Option (Target α)} {s s' : SearchState q n} {g g' : γ}
  {u v : Fin n}

/-- The variable that an iteration toggles itself. -/
def moved (s : SearchState q n) : Option (Fin n) :=
  match s.scanned with
  | .improving v _ => some v
  | .exhausted nearMiss _ => nearMiss.map Prod.fst

theorem moves_iff : s.Moves v ↔ s.moved = some v := by
  unfold Moves moved
  cases found : s.scanned with
  | improving u left => simp
  | exhausted nearMiss left =>
      cases nearMiss with
      | none => simp
      | some held => simp [Prod.ext_iff]

theorem Moves.unique (first : s.Moves u) (second : s.Moves v) : u = v := by
  rw [moves_iff] at first second
  exact Option.some.inj (first.symm.trans second)

theorem Moves.countdown_eq (moves : s.Moves v) : s.tabu.countdown.get v = 0 := by
  have listed := (examined_isPrefix ..).subset moves.mem_examines
  have free := (List.mem_filter.mp listed).2
  rw [Bool.not_eq_true', ← Bool.not_eq_true, TabuList.forbids_iff] at free
  omega

/-- An iteration waits until a variable is free, or it moves a variable and forbids it. The last one
of a search that reaches its target moves a variable and leaves the list as it is. -/
theorem Iterates.list_cases (step : Iterates limits target s g s' g') (ranked : s.Ranked) (v : Fin n) :
    (s.Blocked ∧ s' = s.waited s.tabu.shortest) ∨
      ∃ u, s.Moves u ∧ s'.iterations = min (s.iterations + 1) greatestWord ∧
        (s'.targetReached = true ∨ ∃ longer, s'.tabu = s.tabu.relax.arm u longer) := by
  cases step with
  | reaches found counted climbs met => exact Or.inr ⟨_, Or.inl ⟨_, found⟩, rfl, Or.inl rfl⟩
  | improves found counted climbs unmet bounded =>
      exact Or.inr ⟨_, Or.inl ⟨_, found⟩, rfl, Or.inr ⟨_, rfl⟩⟩
  | diverts found counted => exact Or.inr ⟨_, Or.inr ⟨_, _, found⟩, rfl, Or.inr ⟨_, rfl⟩⟩
  | idles found =>
      have blocked : s.Blocked := fun u => scan_empty_iff.mp ⟨_, found⟩ u (ranked u)
      exact Or.inl ⟨blocked, idle_eq_waited s ((s.blocked_iff v).mp blocked)⟩

omit [Coefficient α] in
theorem countdown_waited (s : SearchState q n) (count : Nat) (v : Fin n) :
    (s.waited count).tabu.countdown.get v = s.tabu.countdown.get v - count :=
  s.tabu.get_lowered count v

omit [Coefficient α] in
theorem iterations_waited_le (s : SearchState q n) (count : Nat) :
    (s.waited count).iterations ≤ s.iterations + count := Nat.min_le_left _ _

/-- What the countdown of `v` comes to in an iteration that does not end the search. Iterations are
counted on up to the greatest word. -/
theorem Iterates.countdown_cases (step : Iterates limits target s g s' g') (ranked : s.Ranked)
    (goes_on : s'.targetReached = false) (v : Fin n) :
    (s.Moves v ∧ (s'.iterations < greatestWord → s'.iterations = s.iterations + 1) ∧
      min (s.tabu.tenure - 1) greatestWord ≤ s'.tabu.countdown.get v ∧
      s'.tabu.countdown.get v ≤ s.tabu.tenure + 1) ∨
    (¬s.Moves v ∧ ∃ count, (s'.iterations < greatestWord → s'.iterations = s.iterations + count) ∧
      s'.tabu.countdown.get v = s.tabu.countdown.get v - count) := by
  have counts_on : ∀ {count total : Nat}, total = min (s.iterations + count) greatestWord →
      total < greatestWord → total = s.iterations + count := by
    intro count total counted unsaturated
    omega
  rcases step.list_cases ranked v with ⟨blocked, rfl⟩ | ⟨u, moves, counted, ends | ⟨longer, armed⟩⟩
  · refine Or.inr ⟨?_, s.tabu.shortest, counts_on rfl, s.countdown_waited _ v⟩
    intro moves
    have free := moves.countdown_eq
    have forbidden := TabuList.forbids_iff.mp (blocked v)
    omega
  · rw [ends] at goes_on
    cases goes_on
  · rw [armed]
    by_cases same : u = v
    · subst same
      refine Or.inl ⟨moves, counts_on counted, ?_⟩
      have tenure_eq : s.tabu.relax.tenure = s.tabu.tenure := rfl
      rw [TabuList.get_arm_self, tenure_eq]
      cases longer with
      | true =>
          rw [if_pos rfl]
          omega
      | false =>
          rw [if_neg Bool.false_ne_true]
          omega
    · refine Or.inr ⟨fun other => same (moves.unique other), 1, counts_on counted, ?_⟩
      rw [TabuList.get_arm_of_ne _ same, TabuList.relax_eq_lowered, TabuList.get_lowered]

theorem Iterates.tenure_eq (step : Iterates limits target s g s' g') :
    s'.tabu.tenure = s.tabu.tenure := by
  cases step with
  | reaches found counted climbs met => rfl
  | improves found counted climbs unmet bounded => rfl
  | diverts found counted => rfl
  | idles found => rfl

theorem Leads.tenure_eq {a b : SearchState q n × γ} (path : Leads limits target a b) :
    b.1.tabu.tenure = a.1.tabu.tenure := by
  induction path with
  | refl => rfl
  | tail _ proceeds ih => exact (Proceeds.iterates proceeds).tenure_eq.trans ih

theorem Proceeds.iterations_le {a b : SearchState q n × γ} (proceeds : Proceeds limits target a b)
    (counted : a.1.iterations ≤ greatestWord) : b.1.iterations ≤ greatestWord :=
  ((Proceeds.iterates proceeds).grows.iterations counted).2

/-- The target has not been reached as long as an iteration follows. -/
theorem Leads.targetReached_eq {a b : SearchState q n × γ} (path : Leads limits target a b)
    (goes : b.1.isFinished = false) : a.1.targetReached = false := by
  have unfinished : a.1.isFinished = false := Reaches.unfinished path goes
  exact (Bool.or_eq_false_iff.mp unfinished).1

end SearchState

namespace TabuSearch

section Numbers

variable (p : TabuSearch α) (limits : Limits) (fits : n ≤ q.size) (x : Assignment n)
  (effort : Effort) (ceiling : Nat) (g : γ)

/-- The iteration with the number `i` leads from one state to the other. Idle iterations that are
passed over in one go have a number each. -/
def Makes (i : Nat) (head next : SearchState q n × γ) : Prop :=
  p.Heads limits fits x effort ceiling g head ∧ SearchState.Proceeds limits p.target head next ∧
    head.1.iterations < i ∧ i ≤ next.1.iterations

def MovesIn (i : Nat) (v : Fin n) : Prop :=
  ∃ head next, p.Makes limits fits x effort ceiling g i head next ∧ head.1.Moves v

end Numbers

variable {p : TabuSearch α} {limits : Limits} {fits : n ≤ q.size} {x : Assignment n}
  {effort : Effort} {ceiling : Nat} {g : γ} {head next head' next' : SearchState q n × γ}
  {i j : Nat} {v : Fin n}

theorem Heads.iterations_le (starts : p.Heads limits fits x effort ceiling g head) :
    head.1.iterations ≤ greatestWord := by
  obtain ⟨_, walk, g₀, _, path⟩ := starts
  exact (path.grows.iterations (Nat.zero_le _)).2

theorem Heads.ranked (starts : p.Heads limits fits x effort ceiling g head) : head.1.Ranked := by
  obtain ⟨_, walk, g₀, climbs, _⟩ := id starts
  exact (starts.holds climbs).1

theorem Heads.tenure_eq (starts : p.Heads limits fits x effort ceiling g head) :
    head.1.tabu.tenure = p.tenure := by
  obtain ⟨_, walk, g₀, _, path⟩ := starts
  exact path.tenure_eq

/-- An iteration that moves a variable has one number, the one after all before. -/
theorem Makes.iterations_eq (makes : p.Makes limits fits x effort ceiling g i head next)
    (moves : head.1.Moves v) : head.1.iterations + 1 = i ∧ next.1.iterations = i := by
  obtain ⟨starts, proceeds, above, below⟩ := makes
  have step := proceeds.iterates
  rcases step.list_cases starts.ranked v with ⟨blocked, _⟩ | ⟨_, _, counted, _⟩
  · have free := moves.countdown_eq
    have forbidden := TabuList.forbids_iff.mp (blocked v)
    omega
  · omega

/-- Two iterations are the same, or one of them comes after the other. -/
theorem Heads.same_or_after (starts : p.Heads limits fits x effort ceiling g head)
    (starts' : p.Heads limits fits x effort ceiling g head')
    (proceeds : SearchState.Proceeds limits p.target head next)
    (proceeds' : SearchState.Proceeds limits p.target head' next') :
    (head = head' ∧ next = next') ∨ SearchState.Leads limits p.target next head' ∨
      SearchState.Leads limits p.target next' head := by
  have alike : head = head' → next = next' := by
    intro same
    rw [← same] at proceeds'
    exact Advances.unique proceeds proceeds'
  rcases starts.total starts' with onward | back
  · rcases onward.cases_head with same | ⟨other, along, rest⟩
    · exact Or.inl ⟨same, alike same⟩
    · rw [← Advances.unique proceeds along] at rest
      exact Or.inr (Or.inl rest)
  · rcases back.cases_head with same | ⟨other, along, rest⟩
    · exact Or.inl ⟨same.symm, alike same.symm⟩
    · rw [← Advances.unique proceeds' along] at rest
      exact Or.inr (Or.inr rest)

theorem Makes.iterations_le (makes : p.Makes limits fits x effort ceiling g i head next)
    (path : SearchState.Leads limits p.target next head') : i ≤ head'.1.iterations := by
  obtain ⟨starts, proceeds, _, below⟩ := makes
  have counted := proceeds.iterations_le starts.iterations_le
  exact Nat.le_trans below (path.grows.iterations counted).1

/-- No number belongs to two iterations. -/
theorem Makes.unique (first : p.Makes limits fits x effort ceiling g i head next)
    (second : p.Makes limits fits x effort ceiling g i head' next') : head = head' := by
  rcases first.1.same_or_after second.1 first.2.1 second.2.1 with same | onward | back
  · exact same.1
  · exact absurd second.2.2.1 (Nat.not_lt_of_le (first.iterations_le onward))
  · exact absurd first.2.2.1 (Nat.not_lt_of_le (second.iterations_le back))

/-- An iteration with a greater number starts from a state that comes later. -/
theorem Makes.leads (first : p.Makes limits fits x effort ceiling g i head next)
    (second : p.Makes limits fits x effort ceiling g j head' next')
    (last : next.1.iterations = i) (later : i < j) :
    SearchState.Leads limits p.target next head' := by
  rcases first.1.same_or_after second.1 first.2.1 second.2.1 with same | onward | back
  · have below := second.2.2.2
    rw [← same.2, last] at below
    omega
  · exact onward
  · have below := second.iterations_le back
    have above := first.2.2.1
    omega

/-- What holds of an iteration between two states that iterations start from. -/
theorem Heads.between (starts : p.Heads limits fits x effort ceiling g head)
    {first last c d : SearchState q n × γ} (proceeds : SearchState.Proceeds limits p.target head first)
    (before : SearchState.Leads limits p.target first c)
    (along : SearchState.Proceeds limits p.target c d)
    (after : SearchState.Leads limits p.target d last) (goes : last.1.isFinished = false) :
    p.Heads limits fits x effort ceiling g c ∧ d.1.targetReached = false ∧
      first.1.iterations ≤ c.1.iterations ∧ d.1.iterations ≤ last.1.iterations := by
  have here : p.Heads limits fits x effort ceiling g c :=
    starts.onward (before.head proceeds) along.1
  have counted := proceeds.iterations_le starts.iterations_le
  have counted' := along.iterations_le here.iterations_le
  exact ⟨here, after.targetReached_eq goes, (before.grows.iterations counted).1,
    (after.grows.iterations counted').1⟩

theorem Makes.lt_greatestWord (makes : p.Makes limits fits x effort ceiling g i head next) :
    head.1.iterations < greatestWord := by
  obtain ⟨starts, proceeds, above, below⟩ := makes
  exact Nat.lt_of_lt_of_le above (Nat.le_trans below (proceeds.iterations_le starts.iterations_le))

/-- The countdown that an iteration leaves to the variable that it has moved. -/
theorem Makes.countdown_bounds (makes : p.Makes limits fits x effort ceiling g i head next)
    (moves : head.1.Moves v) (goes_on : next.1.targetReached = false) :
    min (p.tenure - 1) greatestWord ≤ next.1.tabu.countdown.get v ∧
      next.1.tabu.countdown.get v ≤ p.tenure + 1 := by
  obtain ⟨starts, proceeds, _⟩ := makes
  rw [← starts.tenure_eq]
  rcases proceeds.iterates.countdown_cases starts.ranked goes_on v with
    ⟨_, _, bounds⟩ | ⟨still, _⟩
  · exact bounds
  · exact absurd moves still

theorem MovesIn.add_tenure_le (first : p.MovesIn limits fits x effort ceiling g i v)
    (second : p.MovesIn limits fits x effort ceiling g j v) (later : i < j) : i + p.tenure ≤ j := by
  obtain ⟨head, next, makes, moves⟩ := first
  obtain ⟨head', next', makes', moves'⟩ := second
  have last := (makes.iterations_eq moves).2
  have number := (makes'.iterations_eq moves').1
  have path := makes.leads makes' last later
  have goes := makes'.1.1
  have unsaturated := makes'.lt_greatestWord
  have lasting : min (p.tenure - 1) greatestWord ≤
      head'.1.tabu.countdown.get v + (head'.1.iterations - i) := by
    apply path.keeps (fun s =>
      min (p.tenure - 1) greatestWord ≤ s.tabu.countdown.get v + (s.iterations - i))
    · intro c d before along after held
      obtain ⟨here, goes_on, begun, onward⟩ := makes.1.between makes.2.1 before along after goes
      rcases (SearchState.Proceeds.iterates along).countdown_cases here.ranked goes_on v with
        ⟨_, _, least, _⟩ | ⟨_, count, counted, lowered⟩
      · rw [here.tenure_eq] at least
        exact Nat.le_trans least (Nat.le_add_right _ _)
      · have counted := counted (Nat.lt_of_le_of_lt onward unsaturated)
        omega
    · obtain ⟨least, _⟩ := makes.countdown_bounds moves (path.targetReached_eq goes)
      exact Nat.le_trans least (Nat.le_add_right _ _)
  have free := moves'.countdown_eq
  omega

theorem MovesIn.not_forbids (first : p.MovesIn limits fits x effort ceiling g i v)
    (second : p.Makes limits fits x effort ceiling g j head' next') (late : i + p.tenure + 2 ≤ j)
    (unmoved : ∀ k, i < k → k < j → ¬p.MovesIn limits fits x effort ceiling g k v) :
    head'.1.iterations + 1 = j ∧ head'.1.tabu.forbids v = false := by
  obtain ⟨head, next, makes, moves⟩ := first
  have last := (makes.iterations_eq moves).2
  have path := makes.leads second last (by omega)
  have goes := second.1.1
  have elapsed : head'.1.tabu.countdown.get v ≤ p.tenure + 1 - (head'.1.iterations - i) := by
    have unsaturated := second.lt_greatestWord
    apply path.keeps (fun s => s.tabu.countdown.get v ≤ p.tenure + 1 - (s.iterations - i))
    · intro c d before along after held
      obtain ⟨here, goes_on, begun, onward⟩ := makes.1.between makes.2.1 before along after goes
      rcases (SearchState.Proceeds.iterates along).countdown_cases here.ranked goes_on v with
        ⟨again, counted, _⟩ | ⟨_, count, counted, lowered⟩
      · have number := counted (Nat.lt_of_le_of_lt onward unsaturated)
        have above := second.2.2.1
        exact absurd ⟨c, d, ⟨here, along, by omega, Nat.le_refl _⟩, again⟩
          (unmoved d.1.iterations (by omega) (by omega))
      · have counted := counted (Nat.lt_of_le_of_lt onward unsaturated)
        omega
    · have most := (makes.countdown_bounds moves (path.targetReached_eq goes)).2
      omega
  rw [← Bool.not_eq_true, TabuList.forbids_iff]
  rcases second.2.1.iterates.list_cases second.1.ranked v with ⟨blocked, waits⟩ | ⟨u, moves', _⟩
  · have forbidden := TabuList.forbids_iff.mp (blocked v)
    have shortest := head'.1.tabu.shortest_le v
    have counted := head'.1.iterations_waited_le head'.1.tabu.shortest
    have below := second.2.2.2
    rw [← waits] at counted
    omega
  · have number := (second.iterations_eq moves').1
    omega

theorem Heads.makes (starts : p.Heads limits fits x effort ceiling g head)
    (proceeds : SearchState.Proceeds limits p.target head next) (v : Fin n)
    (unsaturated : head.1.iterations < greatestWord) :
    p.Makes limits fits x effort ceiling g (head.1.iterations + 1) head next := by
  refine ⟨starts, proceeds, Nat.lt_succ_self _, ?_⟩
  rcases proceeds.iterates.list_cases starts.ranked v with ⟨blocked, waits⟩ | ⟨_, _, counted, _⟩
  · have lasting := (head.1.blocked_iff v).mp blocked
    rw [waits]
    exact Nat.le_min.mpr ⟨Nat.add_le_add_left lasting _, unsaturated⟩
  · rw [counted]
    exact Nat.le_min.mpr ⟨Nat.le_refl _, unsaturated⟩

/-- Iterations have the numbers that they are counted by, also the idle ones that are passed over. A
variable that iteration `i` moves is not moved again before `i + tenure`, and from `i + tenure + 2` on
it is free until it is moved again. The local searches in between look at forbidden variables as they
do at all others. -/
theorem spacing_of_moves (p : TabuSearch α) (limits : Limits) (fits : n ≤ q.size)
    (x : Assignment n) (effort : Effort) (ceiling : Nat) (g : γ) :
    (∀ i j v, p.MovesIn limits fits x effort ceiling g i v →
      p.MovesIn limits fits x effort ceiling g j v → i < j → i + p.tenure ≤ j) ∧
    (∀ i j v, p.MovesIn limits fits x effort ceiling g i v → i + p.tenure + 2 ≤ j →
      (∀ k, i < k → k < j → ¬p.MovesIn limits fits x effort ceiling g k v) →
      ∀ head next : SearchState q n × γ, p.Makes limits fits x effort ceiling g j head next →
        head.1.iterations + 1 = j ∧ head.1.tabu.forbids v = false) ∧
    ∀ j, ∀ head next : SearchState q n × γ, p.Makes limits fits x effort ceiling g j head next →
      ∀ v left, head.1.scanned = .improving v left →
        ∃ orders, next.1.walk = Walk.sweepAll ⟨head.1.walk.current.flip v, left⟩ orders ∧
          ∀ before order rest, orders = before ++ order :: rest →
            (Walk.sweepAll ⟨head.1.walk.current.flip v, left⟩ before).LooksOnceAtEach order := by
  refine ⟨?_, ?_, ?_⟩
  · intro i j v first second later
    exact first.add_tenure_le second later
  · intro i j v first late unmoved head next makes
    exact first.not_forbids makes late unmoved
  · intro j head next makes v left found
    obtain ⟨_, g', climbs⟩ := makes.2.1.iterates.commits.improving v left found
    obtain ⟨orders, climbs⟩ := Walk.climbs_of_climbFrom climbs
    refine ⟨orders, climbs.last_eq_sweepAll, ?_⟩
    intro before order rest split
    have member : order ∈ orders := by
      rw [split]
      exact List.mem_append_right before List.mem_cons_self
    exact climbs.looksOnceAtEach Walk.perm_ofFn_id _ member

/-- The first variable is moved in the iterations 1 and 5, as late as it must be free again. Iteration 4
is idle, and the local search of iteration 2 toggles the variable while it is forbidden. -/
theorem spacing_of_moves_beside_a_local_search :
    let one := Binary64.ofNat 1
    let three := Binary64.ofNat 3
    let five := Binary64.ofNat 5
    let q : Qubo Binary64 := ⟨3, #v[-one, three, -three, 0, -one, five, 0, 0, -one]⟩
    let fits : 3 ≤ q.size := by decide
    let p : TabuSearch Binary64 := ⟨2, none, 2⟩
    let limits := Limits.uniform 80
    let x := Assignment.allZero 3
    let g := KeyStream.ofSeed 3
    p.MovesIn limits fits x Effort.zero 30 g 1 0 ∧ p.MovesIn limits fits x Effort.zero 30 g 5 0 ∧
      1 + p.tenure ≤ 5 ∧
      (∀ k, 1 < k → k < 5 → ¬p.MovesIn limits fits x Effort.zero 30 g k 0) ∧
      (∃ head next, p.Makes limits fits x Effort.zero 30 g (1 + p.tenure + 2) head next ∧
        head.1.tabu.forbids 0 = false) ∧
      ∃ head next v left, p.Makes limits fits x Effort.zero 30 g 2 head next ∧
        head.1.scanned = .improving v left ∧ head.1.tabu.forbids 0 = true ∧
        (head.1.walk.current.flip v).bits.get 0 = true ∧
        next.1.walk.current.bits.get 0 = false ∧
        ∃ orders, next.1.walk = Walk.sweepAll ⟨head.1.walk.current.flip v, left⟩ orders := by
  intro one three five q fits p limits x g
  have reported : [0, 2, 4].map (fun count =>
      (p.headAfter limits fits x Effort.zero 30 count g).map fun result =>
        result.1.toOption.map fun (_, head) => (head.iterations, head.moved)) =
      [some (some (0, some 0)), some (some (2, some 2)), some (some (4, some 0))] := by
    decide +kernel
  have toggled : ((p.improvementAfter limits fits x Effort.zero 30 1 g).map fun result =>
      result.1.toOption.map fun (_, head, (v, _), improved) =>
        (head.iterations, [head.tabu.forbids 0, (head.walk.current.flip v).bits.get 0,
          improved.current.bits.get 0])) = some (some (1, [true, true, false])) := by
    decide +kernel
  have ended : ((p.run limits q x Effort.zero 30 g).map fun result =>
      result.1.toOption.map fun _ => ()) = some (some ()) := by
    decide +kernel
  obtain ⟨found, _, returned, _⟩ := Attempt.exists_ok_of_report ended
  obtain ⟨_, ⟨empty, _⟩ | ⟨walk, g₀, last, climbs, path, finished, _⟩⟩ := course_of_run returned
  · cases empty
  have makes : ∀ head, p.Heads limits fits x Effort.zero 30 g head → head.1.iterations < 5 →
      ∃ next, p.Makes limits fits x Effort.zero 30 g (head.1.iterations + 1) head next := by
    intro head starts few
    obtain ⟨_, next, proceeds, _⟩ := starts.next climbs path finished
    exact ⟨next, starts.makes proceeds 0 (Nat.lt_trans few (by decide))⟩
  have numbered : ∀ {count iterations v},
      ((p.headAfter limits fits x Effort.zero 30 count g).map fun result =>
        result.1.toOption.map fun (_, head) => (head.iterations, head.moved)) =
        some (some (iterations, some v)) → iterations < 5 →
      ∃ head next, p.Makes limits fits x Effort.zero 30 g (iterations + 1) head next ∧
        head.1.Moves v := by
    intro count iterations v report few
    obtain ⟨⟨_, head⟩, g₁, ends, values⟩ := Attempt.exists_ok_of_report report
    obtain ⟨counted, moved⟩ := Prod.mk.inj values
    obtain ⟨_, _, starts⟩ := heads_of_headAfter ends
    subst counted
    obtain ⟨next, makes⟩ := makes (head, g₁) starts few
    exact ⟨(head, g₁), next, makes, SearchState.moves_iff.mpr moved⟩
  simp only [List.map_cons, List.map_nil, List.cons.injEq, and_true] at reported
  obtain ⟨first, between, again⟩ := reported
  have first : p.MovesIn limits fits x Effort.zero 30 g 1 0 := numbered first (by decide)
  obtain ⟨head₃, _, makes₃, moves₃⟩ := numbered between (by decide)
  obtain ⟨head₅, next₅, makes₅, moves₅⟩ := numbered again (by decide)
  have again : p.MovesIn limits fits x Effort.zero 30 g 5 0 := ⟨head₅, next₅, makes₅, moves₅⟩
  obtain ⟨spacing, freed, sweeps⟩ := spacing_of_moves p limits fits x Effort.zero 30 g
  have unmoved : ∀ k, 1 < k → k < 5 → ¬p.MovesIn limits fits x Effort.zero 30 g k 0 := by
    intro k after before moves
    have far : 1 + 2 ≤ k := spacing 1 k 0 first moves after
    have near : k + 2 ≤ 5 := spacing k 5 0 moves again before
    have number : k = 2 + 1 := by omega
    subst number
    obtain ⟨head, next, makes, moves⟩ := moves
    rw [makes.unique makes₃] at moves
    exact absurd (moves.unique moves₃) (by decide)
  obtain ⟨⟨_, head, ⟨v, left⟩, improved⟩, g₁, ends, values⟩ := Attempt.exists_ok_of_report toggled
  obtain ⟨counted, bits⟩ := Prod.mk.inj values
  simp only [List.cons.injEq, and_true] at bits
  obtain ⟨forbidden, on, off⟩ := bits
  obtain ⟨_, g₂, _, starts, found, ascends⟩ := of_improvementAfter ends
  obtain ⟨next, makes₂⟩ := makes (head, g₂) starts (by rw [counted]; decide)
  have number : head.iterations + 1 = 2 := congrArg Nat.succ counted
  rw [number] at makes₂
  obtain ⟨orders, walk_eq, _⟩ := sweeps 2 (head, g₂) next makes₂ v left found
  obtain ⟨_, g₄, ascends'⟩ := makes₂.2.1.iterates.commits.improving v left found
  cases ascends.symm.trans ascends'
  exact ⟨first, again, spacing 1 5 0 first again (by decide), unmoved,
    ⟨head₅, next₅, makes₅, (freed 1 5 0 first (by decide) unmoved head₅ next₅ makes₅).2⟩,
    (head, g₂), next, v, left, makes₂, found, forbidden, on, off, orders, walk_eq⟩

end TabuSearch

end BinaryQuadratic
