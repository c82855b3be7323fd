import Hoist.Proofs.Lowering.Finished

/-!
# The tables of units are closed and flat

Whatever functions, branches and loops a unit nests, and wherever it reads the names around them, the
lambdas of its table refer to nothing but their parameters, what their own `let`s have bound before,
and each other.
-/

namespace Hoist.Lowering

open Hoist.Flat (Source)

/-- Every lambda in the table of a unit is closed over that table. -/
theorem lowerSource_closed {source : Source} {issued : Nat} {verbose : Bool} {entry : Flat.Symbol}
    (h : (lowerSource source { issued := issued, verbose := verbose }).result = .ok entry) :
    ∀ l ∈ (lowerSource source { issued := issued, verbose := verbose }).table.lambdas,
      l.isClosed (lowerSource source { issued := issued, verbose := verbose }).table = true := by
  unfold lowerSource at h ⊢
  cases hm : Surface.readModule source.text with
  | error fault =>
    simp only [hm] at h
    cases h
  | ok m =>
    simp only [hm] at h
    obtain ⟨sp, f, ps, b, ds, formals, code, loc, items, L, Δ, -, -, hfinished⟩ :=
      lowerModule_finished rfl rfl h
    exact hfinished.closed

/-- A function with a function, a loop and a conditional inside, which read its names. -/
def countingUp : Source where
  serial := 0
  url := "test.py"
  firstLine := 1
  text := ("def f(n):\n    def g(y):\n        return y < n\n    x = 0\n    while g(x):\n" ++
    "        if x < n - 2:\n            x = x + 2\n        else:\n            x = x + 1\n" ++
    "    return x\n").toList

theorem countingUp_lowered : (lowerSource countingUp {}).result = .ok (.global "f") := by
  have h : (match (lowerSource countingUp {}).result with
    | .ok entry => entry == .global "f"
    | .error _ => false) = true := by decide +kernel
  split at h
  · rename_i entry he
    rw [he, eq_of_beq h]
  · cases h

theorem countingUp_closed : (lowerSource countingUp {}).table.lambdas.length = 6 ∧
    ∀ l ∈ (lowerSource countingUp {}).table.lambdas,
      l.isClosed (lowerSource countingUp {}).table = true :=
  ⟨by decide +kernel, lowerSource_closed countingUp_lowered⟩

end Hoist.Lowering
