import BinaryQuadratic.Proofs.Course
import BinaryQuadratic.Proofs.Rounding
import BinaryQuadratic.Random.Scripted

set_option autoImplicit false

/-! The records of a tabu search rise, however sums are rounded. An improving move has exactly the
energy that was found to beat the best, and the local search after it adds nothing but positive
costs. -/

namespace BinaryQuadratic

variable {α γ : Type} [Coefficient α] [Generator γ] {q : Qubo α} {n : Nat}

section Order

variable (ascends : ∀ {a b c : α}, a < b → 0 < c → a < b + c)

include ascends in
theorem Walk.lt_energy_of_climb {limits : Limits} {start last : Walk q n} {g g' : γ} {bound : α}
    (below : bound < start.current.energy)
    (ends : climb limits start g = some (.ok last, g')) : bound < last.current.energy := by
  have examined : ∀ (seen : List (Fin n)) {walk : Walk q n}, bound < walk.current.energy →
      bound < (seen.foldl examine walk).current.energy := by
    intro seen
    induction seen with
    | nil => exact id
    | cons v rest ih =>
        intro walk below
        refine ih ?_
        unfold examine
        by_cases raises : 0 < walk.current.costs.get v
        · rw [if_pos raises]
          exact ascends below raises
        · rw [if_neg raises]
          exact below
  obtain ⟨orders, climbs⟩ := climbs_of_climbFrom ends
  rw [climbs.last_eq]
  exact examined _ below

namespace SearchState

variable {limits : Limits} {target : Option (Target α)}

/-- The records rise to the best energy, which is the last of them. -/
structure Rising (s : SearchState q n) : Prop where
  pairwise : s.trace.Pairwise (· < ·)
  le_best : ∀ energy ∈ s.trace, energy = s.bestEnergy ∨ energy < s.bestEnergy

variable (transitive : ∀ {a b c : α}, a < b → b < c → a < c)

include transitive in
omit [Generator γ] in
theorem Rising.record {s : SearchState q n} (rising : s.Rising) {walk : Walk q n}
    (beats : s.bestEnergy < walk.current.energy) : (s.record walk).Rising := by
  have above : ∀ energy ∈ s.trace, energy < walk.current.energy := by
    intro energy member
    rcases rising.le_best energy member with same | below
    · rw [same]
      exact beats
    · exact transitive below beats
  constructor
  · refine List.pairwise_append.mpr ⟨rising.pairwise, List.pairwise_singleton _ _, ?_⟩
    intro energy member latest last
    rw [List.mem_singleton.mp last]
    exact above energy member
  · intro energy member
    rcases List.mem_append.mp member with before | last
    · exact .inr (above energy before)
    · exact .inl (List.mem_singleton.mp last)

include ascends transitive in
theorem Rising.iterates {s s' : SearchState q n} {g g' : γ} (rising : s.Rising)
    (step : Iterates limits target s g s' g') : s'.Rising := by
  have recorded : ∀ {v : Fin n} {effort : Effort} {walk : Walk q n} {g₁ : γ},
      s.scanned = .improving v effort →
      Walk.climb limits ⟨s.walk.current.flip v, effort⟩ g = some (.ok walk, g₁) →
      (s.record walk).Rising := by
    intro v effort walk g₁ found climbs
    have beats : s.bestEnergy < (s.walk.current.flip v).energy := (of_scan_improving found).1
    exact rising.record transitive (Walk.lt_energy_of_climb ascends beats climbs)
  cases step with
  | reaches found counted climbs met =>
      obtain ⟨pairwise, le_best⟩ := recorded found climbs
      exact ⟨pairwise, le_best⟩
  | improves found counted climbs unmet bounded =>
      obtain ⟨pairwise, le_best⟩ := recorded found climbs
      exact ⟨pairwise, le_best⟩
  | diverts found counted => exact ⟨rising.pairwise, rising.le_best⟩
  | idles found => exact ⟨rising.pairwise, rising.le_best⟩

include ascends transitive in
theorem Rising.leads {a b : SearchState q n × γ} (rising : a.1.Rising)
    (path : Leads limits target a b) : b.1.Rising := by
  refine Leads.preserves path ?_ rising
  intro s s' g g' held _ step
  exact held.iterates ascends transitive step

end SearchState

include ascends in
theorem TabuSearch.pairwise_bestTrace (transitive : ∀ {a b c : α}, a < b → b < c → a < c)
    {p : TabuSearch α} {limits : Limits} {x : Assignment n} {effort : Effort} {ceiling : Nat}
    {g g' : γ} {found : Searched α n}
    (ends : p.run limits q x effort ceiling g = some (.ok found, g')) :
    found.outcome.bestTrace.Pairwise (· < ·) := by
  obtain ⟨_, ⟨_, rfl, _⟩ | ⟨walk, g₀, last, _, path, _, rfl⟩⟩ := course_of_run ends
  · exact List.pairwise_singleton _ _
  · have first : (SearchState.ofWalk p ceiling walk).Rising :=
      ⟨List.pairwise_singleton _ _, fun _ member => .inl (List.mem_singleton.mp member)⟩
    exact (first.leads ascends transitive path).pairwise

end Order

/-- Every energy that a tabu search records in double precision is greater than all that it recorded
before, infinities and rounding included. -/
theorem TabuSearch.bestTrace_rises_of_run {p : TabuSearch Binary64} {limits : Limits}
    {q : Qubo Binary64} {x : Assignment n} {effort : Effort} {ceiling : Nat} {g g' : γ}
    {found : Searched Binary64 n}
    (ends : p.run limits q x effort ceiling g = some (.ok found, g')) :
    found.outcome.bestTrace.Pairwise (· < ·) :=
  pairwise_bestTrace Binary64.lt_add_of_lt_of_pos Binary64.lt_trans ends

/-- The last three records are of one assignment. Only roundings tell them apart, and none of them is
its energy summed afresh. -/
theorem TabuSearch.bestTrace_rises_of_run_by_roundings :
    let tenths : Nat → Binary64 := fun count => .ofFraction false count 10
    let q : Qubo Binary64 := ⟨4, #v[0, -tenths 9, -tenths 18, tenths 14, 0, -tenths 5, -tenths 14,
      tenths 18, 0, 0, -tenths 10, -tenths 19, 0, 0, 0, -tenths 15]⟩
    let records : List Binary64 := [0, .ofBits 0x3fd3333333333334, .ofBits 0x3fd3333333333338,
      .ofBits 0x3fd3333333333340]
    let g : Scripted :=
      ⟨#[5, 0x9e3779b97f4a7c15, 0xdeadbeefcafebabe, 0x123456789abcdef0], by decide, 0⟩
    ∃ found g', TabuSearch.run (Limits.uniform 40) ⟨3, none, 2⟩ q #v[true, false, false, true]
        Effort.zero 40 g = some (.ok found, g') ∧
      (found.outcome.bestTrace, found.outcome.energy) =
        (records, .ofBits 0x3fd3333333333330) ∧
      found.outcome.bestTrace.Pairwise (· < ·) := by
  intro tenths q records g
  have reported : ((TabuSearch.run (Limits.uniform 40) ⟨3, none, 2⟩ q #v[true, false, false, true]
      Effort.zero 40 g).map fun result => result.1.toOption.map fun found =>
        (found.outcome.bestTrace, found.outcome.energy)) =
        some (some (records, .ofBits 0x3fd3333333333330)) := by
    decide +kernel
  obtain ⟨found, g', ends, values⟩ := Attempt.exists_ok_of_report reported
  exact ⟨found, g', ends, values, bestTrace_rises_of_run ends⟩

end BinaryQuadratic
