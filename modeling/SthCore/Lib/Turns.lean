import Mathlib

/-!
A loop whose turns each bring it nearer to an end.
-/

namespace SthCore.Lib

variable {σ : Type*}

/-- The state after a number of turns, which may depend on what is around at each. -/
def turns (step : Nat → σ → σ) (x : σ) : Nat → σ
  | 0 => x
  | k + 1 => step k (turns step x k)

end SthCore.Lib
