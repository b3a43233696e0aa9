import BinaryQuadratic.Random.Shuffle

set_option autoImplicit false

/-! Random subsets of a given size. Each of the three methods gives distinct numbers whatever words
the generator gives; the sizes alone decide which of them is used. -/

namespace BinaryQuadratic

variable {γ β : Type} [Generator γ] {n : Nat}

namespace Sample

/-- Settle the places `done`, `done + 1`, … in turn, each by a swap with a place at or after it. -/
def settle (redraws : Nat) : (count done : Nat) → done + count ≤ n → Vector β n → Draw γ (Vector β n)
  | 0, _, _, items => pure items
  | count + 1, done, bound, items => do
    have inside : done < n := by omega
    let offset ← Generator.below redraws (n - done) (Nat.sub_pos_of_lt inside)
    settle redraws count (done + 1) (by omega)
      (items.swap done (done + offset) inside (by omega))

def inPlace (redraws amount : Nat) (bound : amount ≤ n) : Draw γ (List (Fin n)) := do
  let items ← settle redraws amount 0 (by omega) (Vector.ofFn id)
  return items.toList.take amount

inductive Repeated
  /-- The newest candidate takes the place before the number. -/
  | insertsBefore
  | appends

/-- For each candidate a number up to it is drawn; the candidate itself stands in for a repeated one. -/
def standInFrom (redraws : Nat) (repeated : Repeated) : List (Fin n) → List (Fin n) → Draw γ (List (Fin n))
  | [], picked => pure picked
  | candidate :: rest, picked => do
    let drawn ← Generator.below redraws (candidate.val + 1) (Nat.succ_pos _)
    let number : Fin n := drawn.castLE candidate.isLt
    let picked :=
      if number ∈ picked then
        match repeated with
        | .insertsBefore => picked.takeWhile (· ≠ number) ++ candidate :: picked.dropWhile (· ≠ number)
        | .appends => picked ++ [candidate]
      else picked ++ [number]
    standInFrom redraws repeated rest picked

/-- Small samples are in random order as they are built; larger ones are shuffled afterwards. -/
def standIn (redraws amount : Nat) : Draw γ (List (Fin n)) := do
  let candidates := (List.finRange n).drop (n - amount)
  if amount < 50 then standInFrom redraws .insertsBefore candidates []
  else
    let picked ← standInFrom redraws .appends candidates []
    let shuffled ← shuffle redraws (Vector.mk picked.toArray rfl)
    return shuffled.toList

def freshNumber (redraws : Nat) (positive : 0 < n) (picked : List (Fin n)) :
    (repeats : Nat) → Draw γ (Fin n)
  | 0 => Draw.abandoned
  | repeats + 1 => do
    let number ← Generator.belowWide redraws n positive
    if number ∈ picked then freshNumber redraws positive picked repeats else pure number

def rejecting (redraws : Nat) (positive : 0 < n) : (amount : Nat) → List (Fin n) → Draw γ (List (Fin n))
  | 0, picked => pure picked
  | amount + 1, picked => do
    let number ← freshNumber redraws positive picked redraws
    rejecting redraws positive amount (picked ++ [number])

end Sample

/-- `amount` distinct numbers below `n < 500000`, in the order drawn. The method follows the sizes:
swapping pays when the sample is a good share of the whole, and the bound for it is
`n < (10 + 1.6 · amount) · amount` or, for large samples, `n < 270 · amount`. -/
def sample (redraws amount : Nat) (bound : amount ≤ n) : Draw γ (List (Fin n)) :=
  if amount < 163 then
    if 11 < amount ∧ 5 * n < 50 * amount + 8 * (amount * amount) then Sample.inPlace redraws amount bound
    else Sample.standIn redraws amount
  else if n < 270 * amount then Sample.inPlace redraws amount bound
  else if positive : 0 < n then Sample.rejecting redraws positive amount []
  else pure []

end BinaryQuadratic
