import Mathlib.Algebra.Ring.Nat
import Mathlib.Data.List.Induction
import BinaryQuadratic.Proofs.Countdown
import BinaryQuadratic.Random.Scripted

set_option autoImplicit false

/-! What a history of calls leaves of the countdowns. A variable that is neither forbidden nor set back
loses one for each iteration that passes, so its countdown is what it was given last, less the
iterations since then; and iterations that are passed over together count one by one. -/

namespace BinaryQuadratic.TabuList

variable {γ : Type} [Generator γ] {n tenure : Nat}

inductive Call (n : Nat)
  | relax
  | forbid (v : Fin n)
  | skipIdle
  | reset

/-- What is seen of a call: the coin that was tossed for it, or how many iterations it passed over. -/
inductive Event (n : Nat)
  | relaxed
  | forbidden (v : Fin n) (longer : Bool)
  | skipped (idle : Nat)
  | reset
deriving DecidableEq

namespace Event

def call : Event n → Call n
  | .relaxed => .relax
  | .forbidden v _ => .forbid v
  | .skipped _ => .skipIdle
  | .reset => .reset

/-- The iterations that pass. -/
def passes : Event n → Nat
  | .relaxed => 1
  | .skipped idle => idle
  | _ => 0

/-- The countdown of `v` starts again. -/
def Restarts (v : Fin n) : Event n → Prop
  | .forbidden u _ => u = v
  | .reset => True
  | _ => False

end Event

/-- Make a call, and note what is seen of it. -/
def perform (t : TabuList n) (call : Call n) (g : γ) : Except Fault (Event n × TabuList n) × γ :=
  match call with
  | .relax => (.ok (.relaxed, t.relax), g)
  | .forbid v =>
    let (outcome, g') := t.forbid v g
    (outcome.map fun next => (.forbidden v (Generator.coin g).1, next), g')
  | .skipIdle => (.ok (.skipped t.shortest, t.skipIdle), g)
  | .reset => (.ok (.reset, t.reset), g)

def performAll (t : TabuList n) (calls : List (Call n)) (g : γ) :
    Except Fault (List (Event n) × TabuList n) × γ :=
  match calls with
  | [] => (.ok ([], t), g)
  | call :: rest =>
    match t.perform call g with
    | (.error fault, g) => (.error fault, g)
    | (.ok (event, next), g) =>
      let (outcome, g) := next.performAll rest g
      (outcome.map fun (events, last) => (event :: events, last), g)

def after (t : TabuList n) : Event n → TabuList n
  | .relaxed => t.lowered 1
  | .forbidden v longer => t.arm v longer
  | .skipped idle => t.lowered idle
  | .reset => t.reset

theorem exists_perform_eq (t : TabuList n) (call : Call n) (g : γ) :
    ∃ event g', t.perform call g = (.ok (event, t.after event), g') ∧ event.call = call := by
  cases call with
  | relax => exact ⟨.relaxed, g, rfl, rfl⟩
  | forbid v =>
      refine ⟨.forbidden v (Generator.coin g).1, (Generator.coin g).2, ?_, rfl⟩
      unfold perform forbid
      simp only [dif_pos v.isLt]
      rfl
  | skipIdle => exact ⟨.skipped t.shortest, g, rfl, rfl⟩
  | reset => exact ⟨.reset, g, rfl, rfl⟩

theorem exists_performAll_eq (t : TabuList n) (calls : List (Call n)) (g : γ) :
    ∃ events g', t.performAll calls g = (.ok (events, events.foldl after t), g') ∧
      events.map Event.call = calls := by
  induction calls generalizing t g with
  | nil => exact ⟨[], g, rfl, rfl⟩
  | cons call rest ih =>
      obtain ⟨event, middle, performs, rfl⟩ := t.exists_perform_eq call g
      obtain ⟨events, last, performs_rest, rfl⟩ := ih (t.after event) middle
      refine ⟨event :: events, last, ?_, rfl⟩
      unfold performAll
      rw [performs]
      simp only [performs_rest]
      rfl

/-! ### One countdown -/

def passed (events : List (Event n)) : Nat := (events.map Event.passes).sum

/-- The countdown that a forbidden variable gets. -/
def given (tenure : Nat) (longer : Bool) : Nat :=
  if longer then min (tenure + 1) greatestWord else tenure - 1

/-- By these events `v` got the countdown `armed` last, and `since` iterations have passed since then.
Without a call that forbids it, from the start or the latest reset on, it has got none. -/
inductive Stands (tenure : Nat) (v : Fin n) : List (Event n) → (armed since : Nat) → Prop
  | start {events : List (Event n)} (untouched : ∀ event ∈ events, ¬event.Restarts v) :
      Stands tenure v events 0 (passed events)
  | reset (before : List (Event n)) {events : List (Event n)}
      (untouched : ∀ event ∈ events, ¬event.Restarts v) :
      Stands tenure v (before ++ .reset :: events) 0 (passed events)
  | forbidden (before : List (Event n)) (longer : Bool) {events : List (Event n)}
      (untouched : ∀ event ∈ events, ¬event.Restarts v) :
      Stands tenure v (before ++ .forbidden v longer :: events) (given tenure longer) (passed events)

section Countdown

variable {v : Fin n} {events : List (Event n)} {armed since : Nat}

@[simp] theorem get_empty (n tenure : Nat) (v : Fin n) : (empty n tenure).countdown.get v = 0 :=
  Vector.getElem_replicate v.isLt

theorem given_le (counted : tenure ≤ greatestWord) (longer : Bool) :
    given tenure longer ≤ greatestWord := by
  unfold given
  split <;> omega

@[simp] theorem tenure_after (t : TabuList n) (event : Event n) :
    (t.after event).tenure = t.tenure := by
  cases event with
  | relaxed => rfl
  | forbidden u longer => rfl
  | skipped idle => rfl
  | reset => rfl

@[simp] theorem tenure_foldl_after (t : TabuList n) (events : List (Event n)) :
    (events.foldl after t).tenure = t.tenure := by
  induction events generalizing t with
  | nil => rfl
  | cons event rest ih =>
      rw [List.foldl_cons, ih, tenure_after]

theorem get_after (t : TabuList n) {event : Event n} (untouched : ¬event.Restarts v) :
    (t.after event).countdown.get v = t.countdown.get v - event.passes := by
  cases event with
  | relaxed => exact t.get_lowered 1 v
  | forbidden u longer => exact t.get_arm_of_ne untouched longer
  | skipped idle => exact t.get_lowered idle v
  | reset => exact absurd trivial untouched

theorem get_foldl_after (t : TabuList n) (untouched : ∀ event ∈ events, ¬event.Restarts v) :
    (events.foldl after t).countdown.get v = t.countdown.get v - passed events := by
  induction events generalizing t with
  | nil => rfl
  | cons event rest ih =>
      have untouched_rest : ∀ later ∈ rest, ¬later.Restarts v := fun later member =>
        untouched later (List.mem_cons_of_mem event member)
      rw [List.foldl_cons, ih (t.after event) untouched_rest,
        t.get_after (untouched event List.mem_cons_self), Nat.sub_sub]
      rfl

/-- A countdown that starts again is followed by itself alone. -/
theorem get_of_stands (stands : Stands tenure v events armed since) :
    (events.foldl after (empty n tenure)).countdown.get v = armed - since := by
  cases stands with
  | start untouched => rw [get_foldl_after _ untouched, get_empty]
  | reset before untouched =>
      rw [List.foldl_append, List.foldl_cons, get_foldl_after _ untouched]
      exact congrArg (· - _) (get_empty n _ v)
  | forbidden before longer untouched =>
      rw [List.foldl_append, List.foldl_cons, get_foldl_after _ untouched]
      change ((before.foldl after (empty n tenure)).arm v longer).countdown.get v - _ = _
      rw [get_arm_self, tenure_foldl_after]
      rfl

theorem passed_append (events : List (Event n)) (event : Event n) :
    passed (events ++ [event]) = passed events + event.passes := by
  unfold passed
  rw [List.map_append, List.sum_append]
  rfl

theorem Stands.append (stands : Stands tenure v events armed since) {event : Event n}
    (untouched : ¬event.Restarts v) :
    Stands tenure v (events ++ [event]) armed (since + event.passes) := by
  have both : ∀ {seen : List (Event n)}, (∀ earlier ∈ seen, ¬earlier.Restarts v) →
      ∀ later ∈ seen ++ [event], ¬later.Restarts v := by
    intro seen untouched_before later member
    rcases List.mem_append.mp member with earlier | last
    · exact untouched_before later earlier
    · rw [List.mem_singleton.mp last]
      exact untouched
  cases stands with
  | start untouched_before =>
      rw [← passed_append]
      exact .start (both untouched_before)
  | reset before untouched_before =>
      rw [← passed_append, List.append_assoc]
      exact .reset before (both untouched_before)
  | forbidden before longer untouched_before =>
      rw [← passed_append, List.append_assoc]
      exact .forbidden before longer (both untouched_before)

theorem exists_stands (tenure : Nat) (v : Fin n) (events : List (Event n)) :
    ∃ armed since, Stands tenure v events armed since := by
  have untouched_none : ∀ event ∈ ([] : List (Event n)), ¬event.Restarts v := by
    intro event member
    cases member
  induction events using List.reverseRecOn with
  | nil => exact ⟨0, _, .start untouched_none⟩
  | append_singleton events event ih =>
      obtain ⟨armed, since, stands⟩ := ih
      cases event with
      | relaxed => exact ⟨armed, _, stands.append not_false⟩
      | skipped idle => exact ⟨armed, _, stands.append not_false⟩
      | reset => exact ⟨0, _, .reset events untouched_none⟩
      | forbidden u longer =>
          by_cases same : u = v
          · subst same
            exact ⟨given tenure longer, _, .forbidden events longer untouched_none⟩
          · exact ⟨armed, _, stands.append same⟩

theorem get_le_of_history (counted : tenure ≤ greatestWord) (events : List (Event n)) (v : Fin n) :
    (events.foldl after (empty n tenure)).countdown.get v ≤ greatestWord := by
  obtain ⟨armed, since, stands⟩ := exists_stands tenure v events
  have armed_le : armed ≤ greatestWord := by
    cases stands with
    | start => exact Nat.zero_le _
    | reset => exact Nat.zero_le _
    | forbidden before longer => exact given_le counted longer
  rw [get_of_stands stands]
  omega

end Countdown

@[simp] theorem remaining_eq (t : TabuList n) (v : Fin n) : t.remaining v = .ok (t.countdown.get v) :=
  dif_pos v.isLt

theorem shortest_eq_zero_of_no_variable (t : TabuList 0) : t.shortest = 0 := by
  have none_listed : t.countdown.toList = [] := List.eq_nil_of_length_eq_zero Vector.length_toList
  unfold shortest
  rw [none_listed]
  rfl

theorem isTabu_skipIdle_eq_false_iff (t : TabuList n) (v : Fin n) :
    t.skipIdle.isTabu v = .ok false ↔ t.countdown.get v = t.shortest := by
  have least := t.shortest_le v
  unfold isTabu
  rw [remaining_eq, skipIdle_eq_lowered, get_lowered]
  change Except.ok (decide (0 < t.countdown.get v - t.shortest)) = Except.ok false ↔ _
  rw [Except.ok.injEq, decide_eq_false_iff_not]
  omega

/-- A skip passes over as many iterations as the least countdown has, so none falls below zero and one
comes to its end. -/
theorem exists_perform_skipIdle_eq (t : TabuList n) (g : γ) :
    ∃ idle next, t.perform .skipIdle g = (.ok (.skipped idle, next), g) ∧
      (∀ (v : Fin n) (count : Nat), t.remaining v = .ok count →
        idle ≤ count ∧ next.remaining v = .ok (count - idle)) ∧
      (n = 0 → idle = 0) ∧
      (0 < n → ∃ v : Fin n, t.remaining v = .ok idle ∧ next.isTabu v = .ok false) := by
  refine ⟨t.shortest, t.skipIdle, rfl, ?_, ?_, ?_⟩
  · intro v count found
    rw [remaining_eq, Except.ok.injEq] at found
    rw [remaining_eq, skipIdle_eq_lowered, get_lowered, found]
    exact ⟨found ▸ t.shortest_le v, rfl⟩
  · rintro rfl
    exact t.shortest_eq_zero_of_no_variable
  · intro positive
    obtain ⟨v, least⟩ := t.exists_get_eq_shortest ⟨0, positive⟩
    rw [← least]
    exact ⟨v, t.remaining_eq v, (t.isTabu_skipIdle_eq_false_iff v).mpr least⟩

/-- Any calls on a new list, with any coins, come to an end. Every countdown is then what its variable
was given last less the iterations that have passed since, and it is counted by a word. A skip now
passes over as many iterations as the least countdown has, and ends that one. -/
theorem remaining_of_calls (n : Nat) {tenure : Nat} (counted : tenure ≤ greatestWord)
    (calls : List (Call n)) (g : γ) :
    ∃ events t g', (empty n tenure).performAll calls g = (.ok (events, t), g') ∧
      events.map Event.call = calls ∧
      (∀ v : Fin n, (∃ armed since, Stands tenure v events armed since) ∧
        ∀ armed since, Stands tenure v events armed since →
          t.remaining v = .ok (armed - since)) ∧
      (∀ (v : Fin n) (count : Nat), t.remaining v = .ok count → count ≤ greatestWord) ∧
      ∃ idle next, t.perform .skipIdle g' = (.ok (.skipped idle, next), g') ∧
        (∀ (v : Fin n) (count : Nat), t.remaining v = .ok count →
          idle ≤ count ∧ next.remaining v = .ok (count - idle)) ∧
        (n = 0 → idle = 0) ∧
        (0 < n → ∃ v : Fin n, t.remaining v = .ok idle ∧ next.isTabu v = .ok false) := by
  obtain ⟨events, g', performs, seen⟩ := (empty n tenure).exists_performAll_eq calls g
  refine ⟨events, _, g', performs, seen, ?_, ?_, exists_perform_skipIdle_eq _ g'⟩
  · intro v
    constructor
    · exact exists_stands tenure v events
    · intro armed since stands
      rw [remaining_eq, get_of_stands stands]
  · intro v count found
    rw [remaining_eq, Except.ok.injEq] at found
    rw [← found]
    exact get_le_of_history counted events v

/-- The greatest tenure cannot be lengthened. Of three countdowns two are down to one after the
iterations passed over, and the next skip ends them. -/
theorem remaining_of_calls_at_greatest_tenure :
    let calls := [.relax, .forbid 0, .forbid 1, .forbid 2, .relax, .skipIdle, .forbid 1]
    let g : Scripted := ⟨#[0, 0x8000000000000000, 1], by decide, 0⟩
    let events : List (Event 3) := [.relaxed, .forbidden 0 true, .forbidden 1 false,
      .forbidden 2 true, .relaxed, .skipped (greatestWord - 2), .forbidden 1 false]
    let t : TabuList 3 := ⟨greatestWord, #v[1, greatestWord - 1, 1]⟩
    greatestWord ≤ greatestWord ∧
    ∃ g', (empty 3 greatestWord).performAll calls g = (.ok (events, t), g') ∧
      events.map Event.call = calls ∧
      (∀ v : Fin 3, (∃ armed since, Stands greatestWord v events armed since) ∧
        ∀ armed since, Stands greatestWord v events armed since →
          t.remaining v = .ok (armed - since)) ∧
      (∀ (v : Fin 3) (count : Nat), t.remaining v = .ok count → count ≤ greatestWord) ∧
      ∃ next, t.perform .skipIdle g' = (.ok (.skipped 1, next), g') ∧
        (∀ (v : Fin 3) (count : Nat), t.remaining v = .ok count →
          1 ≤ count ∧ next.remaining v = .ok (count - 1)) ∧
        ∃ v : Fin 3, t.remaining v = .ok 1 ∧ next.isTabu v = .ok false := by
  intro calls g events t
  have reported : ((empty 3 greatestWord).performAll calls g).1.toOption = some (events, t) := by
    decide +kernel
  have least : t.shortest = 1 := by decide
  obtain ⟨seen, last, g', performs, made, histories, bounds, idle, next, skips, passed, _, freed⟩ :=
    remaining_of_calls 3 (Nat.le_refl greatestWord) calls g
  rw [performs] at reported
  cases reported
  have idle_eq : idle = 1 := by
    cases skips
    exact least
  subst idle_eq
  exact ⟨Nat.le_refl _, g', performs, made, histories, bounds, next, skips, passed,
    freed (by decide)⟩

end BinaryQuadratic.TabuList
