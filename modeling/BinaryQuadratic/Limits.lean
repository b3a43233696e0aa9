import BinaryQuadratic.Random.Generator

set_option autoImplicit false

/-! How long the loops without a bound of their own may go on. A computation that reaches a limit
has no result; one that ends below its limits does not depend on them. -/

namespace BinaryQuadratic

structure Limits where
  /-- Words thrown away in one random draw. -/
  redraws : Nat
  sweeps : Nat
  iterations : Nat
  passes : Nat

def Limits.uniform (limit : Nat) : Limits := ⟨limit, limit, limit, limit⟩

/-- Steps until a state is finished, `limit` of them at the most. -/
def repeatUntil {σ γ ε : Type} (finished : σ → Bool) (step : σ → ExceptT ε (Draw γ) σ) :
    (limit : Nat) → σ → ExceptT ε (Draw γ) σ
  | 0, s => if finished s then pure s else monadLift (Draw.abandoned : Draw γ σ)
  | limit + 1, s =>
    if finished s then pure s
    else do repeatUntil finished step limit (← step s)

end BinaryQuadratic
