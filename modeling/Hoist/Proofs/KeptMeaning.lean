import Hoist.Proofs.Semantics.Calls

/-!
# Lowering keeps the meaning

A module that is lowered and the table it is lowered to yield the same values for the same arguments,
in whatever world, as long as no function mentions itself and no conditional or loop defines one. Two
kinds of modules are of this form by the statements they use: those with conditionals and loops but
without functions inside, and those with functions inside but without conditionals and loops.
-/

namespace Hoist.Lowering

open Hoist.Flat (Source Symbol)
open Hoist.Surface (Module readModule)

variable {α : Type} {W : World α} {m : Module} {source : Source} {issued : Nat} {verbose : Bool}
  {log : String} {entry : Symbol} {args : List (Value α Empty)} {v : Value α Empty}

/-- The lambda that a tidy module is lowered to yields what the module does. -/
theorem lowerModule_returns_iff
    (h : (lowerModule m source { issued := issued, verbose := verbose } log).result = .ok entry)
    (htidy : m.isTidy = true) : m.Returns W args v ↔
      (lowerModule m source { issued := issued, verbose := verbose } log).table.Returns W entry args
        v := by
  obtain ⟨sp, f, ps, b, ds, formals, code, loc, items, L, Δ, hbody, rfl, hfinished⟩ :=
    lowerModule_finished rfl rfl h
  simp only [Module.isTidy, hbody, Bool.and_eq_true, Bool.not_eq_true', List.contains_eq_mem,
    decide_eq_false_iff_not] at htidy
  exact hfinished.returns_iff hbody htidy.1 htidy.2

/-- A world of integers and some operations on them. -/
def integers : World Empty :=
  .ofPlain (fun _ => none) (fun name vs =>
    match name, vs with
    | "add", [.lit (.int a), .lit (.int b)] => some (.lit (.int (a + b)))
    | "mul", [.lit (.int a), .lit (.int b)] => some (.lit (.int (a * b)))
    | "floordiv", [.lit (.int a), .lit (.int b)] => some (.lit (.int (a / b)))
    | "mod", [.lit (.int a), .lit (.int b)] => some (.lit (.int (a % b)))
    | "eq", [.lit (.int a), .lit (.int b)] => some (.lit (.bool (a == b)))
    | "gt", [.lit (.int a), .lit (.int b)] => some (.lit (.bool (b < a)))
    | _, _ => none) (fun _ => none) fun v =>
    match v with
    | .lit (.bool b) => some b
    | _ => none

/-- Whether a module is lowered to a function `f` and yields an integer for another one, with calls and
turns nested so deep. -/
def computes (source : Source) (m : Module) (depth : Nat) (argument result : Int64) : Bool :=
  (match (lowerModule m source {} "").result with
    | .ok entry => entry == .global "f"
    | .error _ => false) &&
  match m.function?.bind fun f =>
      (Surface.knotAt integers depth).call f [.lit (.int argument)] with
    | some (.lit l) => l == .int result
    | _ => false

theorem of_computes {depth : Nat} {a r : Int64} (h : computes source m depth a r = true) :
    (lowerModule m source {} "").result = .ok (.global "f") ∧
      m.Returns integers [.lit (.int a)] (.lit (.int r)) := by
  rw [computes, Bool.and_eq_true] at h
  obtain ⟨hlow, hrun⟩ := h
  constructor
  · split at hlow
    · rename_i entry he
      rw [he, eq_of_beq hlow]
    · cases hlow
  · split at hrun
    · rename_i l he
      obtain ⟨f, hf, hv⟩ := Option.bind_eq_some_iff.1 he
      rw [eq_of_beq hrun] at hv
      exact ⟨f, hf, depth, hv⟩
    · cases hrun

/-- Conditionals and loops keep their meaning when their parts become lambdas. The names that are
assigned must be few enough for the index of a tuple, as they are in any module that fits into a
memory. -/
theorem imperative_returns_iff
    (h : (lowerModule m source { issued := issued, verbose := verbose } log).result = .ok entry)
    (himperative : m.isImperative = true) (hcount : m.targets.length < 2 ^ 63) :
    m.Returns W args v ↔
      (lowerModule m source { issued := issued, verbose := verbose } log).table.Returns W entry args
        v :=
  lowerModule_returns_iff h (Module.isTidy_of_imperative himperative hcount)

/-- A function that counts how often a number is halved or tripled until it is one. -/
def halving : Source where
  serial := 0
  url := "test.py"
  firstLine := 1
  text := ("def f(n):\n    steps = 0\n    while n > 1:\n        if n % 2 == 0:\n" ++
    "            n = n // 2\n        else:\n            n = 3 * n + 1\n        steps += 1\n" ++
    "    return steps\n").toList

theorem halving_returns : ∃ m, readModule halving.text = .ok m ∧
    m.Returns integers [.lit (.int 6)] (.lit (.int 8)) ∧
    (lowerModule m halving {} "").table.Returns integers (.global "f") [.lit (.int 6)]
      (.lit (.int 8)) := by
  have h : (match readModule halving.text with
    | .ok m => m.isImperative && decide (m.targets.length < 2 ^ 63) && computes halving m 10 6 8
    | .error _ => false) = true := by decide +kernel
  split at h
  · rename_i m hm
    simp only [Bool.and_eq_true, decide_eq_true_eq] at h
    obtain ⟨hlow, hreturns⟩ := of_computes h.2
    exact ⟨m, hm, hreturns, (imperative_returns_iff hlow h.1.1 h.1.2).1 hreturns⟩
  · cases h

/-- Functions keep their meaning when they become lambdas that capture what they read. -/
theorem functional_returns_iff
    (h : (lowerModule m source { issued := issued, verbose := verbose } log).result = .ok entry)
    (hfunctional : m.isFunctional = true) : m.Returns W args v ↔
      (lowerModule m source { issued := issued, verbose := verbose } log).table.Returns W entry args
        v :=
  lowerModule_returns_iff h (Module.isTidy_of_functional hfunctional)

/-- A function that captures a name, which is then bound anew, and makes another function that captures
names of both functions around it. -/
def nesting : Source where
  serial := 0
  url := "test.py"
  firstLine := 1
  text := ("def f(a):\n    b = a + 1\n    def g(x):\n        return lambda y: x + y + b\n" ++
    "    b = 10\n    h = g(b)\n    return h(a)\n").toList

theorem nesting_returns : ∃ m, readModule nesting.text = .ok m ∧
    m.Returns integers [.lit (.int 3)] (.lit (.int 17)) ∧
    (lowerModule m nesting {} "").table.Returns integers (.global "f") [.lit (.int 3)]
      (.lit (.int 17)) := by
  have h : (match readModule nesting.text with
    | .ok m => m.isFunctional && computes nesting m 5 3 17
    | .error _ => false) = true := by decide +kernel
  split at h
  · rename_i m hm
    rw [Bool.and_eq_true] at h
    obtain ⟨hlow, hreturns⟩ := of_computes h.2
    exact ⟨m, hm, hreturns, (functional_returns_iff hlow h.1).1 hreturns⟩
  · cases h

end Hoist.Lowering
