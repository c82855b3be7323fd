/-!
# Plans

A plan is a computation that may ask for the values of keys on its way: it ends with a result, fails,
or asks for a key and goes on with its value. Whoever runs a plan decides how keys are answered.
-/

namespace Hoist.Memo

/-- A computation that asks for the values of keys. -/
inductive Plan (κ ε ρ α : Type)
  | done (a : α)
  | fail (e : ε)
  | ask (key : κ) (next : ρ → Plan κ ε ρ α)

/-- Why a run stopped without a result. -/
inductive Stop (ε : Type)
  | raised (e : ε)
  /-- A key was asked for while it was being computed, or the keys asked for never came to an end. -/
  | stuck
deriving DecidableEq, Repr

namespace Plan

/-- Runs a plan, its keys answered by `demand`. A failure of an answer is a failure of the plan. -/
def run {κ ε ρ α σ : Type} (demand : κ → EStateM (Stop ε) σ ρ) :
    Plan κ ε ρ α → EStateM (Stop ε) σ α
  | .done a => pure a
  | .fail e => throw (.raised e)
  | .ask key next => do
    let value ← demand key
    run demand (next value)

end Plan

end Hoist.Memo
