import Hoist.Proofs.Semantics.Agreement
import Hoist.Proofs.Semantics.Stages

/-!
# The meaning of expressions is kept

In agreeing environments an expression and its code yield related values, provided that calls of
related functions do.
-/

namespace Hoist

namespace Flat

/-- A table that calls no lambda like a builtin. -/
def Table.IsPlain (T : Table) : Prop := ∀ l ∈ T.lambdas, l.ref.isBuiltin = false

variable {α : Type} {W : World α} {T : Table} {call : Fn α → List (Val α) → Option (Val α)}
  {ρ : Bindings α} {loc : Option Location}

theorem Table.IsPlain.contains_builtin (hT : T.IsPlain) (f : String) :
    T.contains (.builtin f) = false := by
  unfold Table.contains
  rw [List.any_eq_false]
  intro l hl
  have := hT l hl
  simp only [Symbol.isBuiltin, Bool.and_eq_false_iff, Bool.not_eq_false'] at this
  cases hg : l.ref.isGenerated with
  | true =>
    rw [Symbol.same_comm, Symbol.not_same_of_plain hg rfl]
    exact Bool.false_ne_true
  | false =>
    rw [hg] at this
    simp_all [Symbol.same, Symbol.builtin, Symbol.isGenerated]

theorem Table.IsPlain.ref (hT : T.IsPlain) {l : Lambda} (h : T.find? l.ref = some l) :
    l.ref.isBuiltin = false := hT l (List.mem_of_find?_eq_some h)

/-- A builtin that is named stands for itself. -/
theorem readSymbol_builtin (hT : T.IsPlain) (hρ : ∀ p ∈ ρ, p.1.isGenerated = true) (f : String) :
    readSymbol W T ρ (.builtin f) = some (.fn ⟨.builtin f, []⟩) := by
  have hget : ρ.get? (.builtin f) = none := Lowering.get?_plain hρ rfl
  rw [readSymbol, hT.contains_builtin, hget]
  rfl

/-- A call of a builtin other than the two that flat code itself knows. -/
theorem eval_invoke (hT : T.IsPlain) (hρ : ∀ p ∈ ρ, p.1.isGenerated = true) {f : String}
    (hs : f ≠ "switch") (hi : f ≠ "identity") (ns : List Node) :
    eval W T call ρ (Lowering.invoke loc (.builtin f) ns) = evals W T call ρ ns >>= W.apply f := by
  have hb : (Symbol.builtin f).isBuiltin = true := rfl
  simp only [Lowering.invoke, eval, readSymbol_builtin hT hρ, Option.bind_eq_bind, Option.bind_some,
    applyValue, hb, if_true, applyBuiltin, List.nil_append]
  simp only [Symbol.builtin, hs, hi, if_false]

end Flat

namespace Lowering

open Hoist.Flat (Symbol Node Location Table)
open Hoist.Surface (Expr Operator allMentions optMentions)

variable {α : Type} {W : World α} {T : Table} {d : Direction} {r : Nat} {names : List String} {Γ : Ctx}
  {env : Surface.Bindings α} {ρ : Flat.Bindings α} {n : Node} {L : List Made}
  {loc : Option Location}

/-- Calls of related functions follow each other at a stage. -/
def Calls (d : Direction) (W : World α) (T : Table) (r : Nat) : Prop :=
  ∀ f g, FnRel T f g → ∀ as bs, List.Forall₂ (ValRel T) as bs →
    Follows d (ValRel T) ((d.knot W r).call f as) (d.call W T r g bs)

/-- An expression follows its code: that is what the induction is about. -/
def Keeps (d : Direction) (W : World α) (T : Table) (r : Nat) (names : List String) (Γ : Ctx)
    (env : Surface.Bindings α) (ρ : Flat.Bindings α) (e : Expr) : Prop :=
  ∀ {n L}, ExprCode T Γ e n L → e.mentions ⊆ names →
    Follows d (ValRel T) (Surface.eval W (d.knot W r) env e) (Flat.eval W T (d.call W T r) ρ n)

/-- No operator stands for one of the builtins that flat code itself knows. -/
theorem builtin?_ne {op : Operator} {f : String} (h : op.builtin? = some f) :
    f ≠ "switch" ∧ f ≠ "identity" := by
  cases op <;> cases h <;> decide

theorem ExprsCode.keeps {es : List Expr} {ns : List Node} (h : ExprsCode T Γ es ns L)
    (ih : ∀ e ∈ es, Keeps d W T r names Γ env ρ e) (hm : allMentions es ⊆ names) :
    Follows d (List.Forall₂ (ValRel T)) (Surface.evals W (d.knot W r) env es)
      (Flat.evals W T (d.call W T r) ρ ns) := by
  induction es generalizing ns L with
  | nil =>
    cases h
    exact .some .nil
  | cons e es ihs =>
    cases h with
    | cons he hes =>
      rw [allMentions, List.append_subset] at hm
      simp only [Surface.evals, Flat.evals]
      exact (ih e (by simp) he hm.1).bind fun v w hv =>
        (ihs hes (fun e he => ih e (List.mem_cons_of_mem _ he)) hm.2).bind fun vs ws hvs =>
          .some (.cons hv hvs)

theorem OptionCode.keeps {o : Option Expr} {v : Literal} (h : OptionCode T Γ v o n L)
    (ih : ∀ e ∈ o, Keeps d W T r names Γ env ρ e) (hm : optMentions o ⊆ names) :
    Follows d (ValRel T) (Surface.evalOption W (d.knot W r) env o v)
      (Flat.eval W T (d.call W T r) ρ n) := by
  cases h with
  | none => exact .some .lit
  | some he => exact ih _ rfl he hm

section Calling

variable (hT : T.IsPlain) (hΓ : Agrees T names Γ env ρ)

include hT hΓ

/-- Two values that a builtin is applied to. -/
theorem invoke_two {f : String} (hs : f ≠ "switch") (hi : f ≠ "identity")
    {o₁ o₂ : Option (Surface.Val α)} {n₁ n₂ : Node}
    (h₁ : Follows d (ValRel T) o₁ (Flat.eval W T (d.call W T r) ρ n₁))
    (h₂ : Follows d (ValRel T) o₂ (Flat.eval W T (d.call W T r) ρ n₂)) :
    Follows d (ValRel T) (o₁ >>= fun v => o₂ >>= fun w => W.apply f [v, w])
      (Flat.eval W T (d.call W T r) ρ (invoke loc (.builtin f) [n₁, n₂])) := by
  rw [Flat.eval_invoke hT hΓ.generated hs hi]
  simp only [Flat.evals, bind_assoc, pure_bind]
  exact h₁.bind fun v w hv => h₂.bind fun v' w' hv' =>
    .of_rel (W.apply_rel f (.cons hv (.cons hv' .nil)))

/-- Three values that a builtin is applied to. -/
theorem invoke_three {f : String} (hs : f ≠ "switch") (hi : f ≠ "identity")
    {o₁ o₂ o₃ : Option (Surface.Val α)} {n₁ n₂ n₃ : Node}
    (h₁ : Follows d (ValRel T) o₁ (Flat.eval W T (d.call W T r) ρ n₁))
    (h₂ : Follows d (ValRel T) o₂ (Flat.eval W T (d.call W T r) ρ n₂))
    (h₃ : Follows d (ValRel T) o₃ (Flat.eval W T (d.call W T r) ρ n₃)) :
    Follows d (ValRel T)
      (o₁ >>= fun u => o₂ >>= fun v => o₃ >>= fun w => W.apply f [u, v, w])
      (Flat.eval W T (d.call W T r) ρ (invoke loc (.builtin f) [n₁, n₂, n₃])) := by
  rw [Flat.eval_invoke hT hΓ.generated hs hi]
  simp only [Flat.evals, bind_assoc, pure_bind]
  exact h₁.bind fun u u' hu => h₂.bind fun v v' hv => h₃.bind fun w w' hw =>
    .of_rel (W.apply_rel f (.cons hu (.cons hv (.cons hw .nil))))

end Calling

/-- A related function is a lambda of the table. -/
theorem FnRel.isBuiltin {f : Surface.Closure α} {ref : Symbol} {ws : List (Flat.Val α)}
    (hT : T.IsPlain) (h : FnRel T f ⟨ref, ws⟩) : ref.isBuiltin = false := by
  cases h with
  | mk hlambda => exact hT.ref hlambda

/-- Calls of related values follow each other, be they functions or values of the world. -/
theorem Calls.applyValue (hT : T.IsPlain) (hc : Calls d W T r) {f : Surface.Val α} {g : Flat.Val α}
    (hf : ValRel T f g) {as : List (Surface.Val α)} {bs : List (Flat.Val α)}
    (hargs : List.Forall₂ (ValRel T) as bs) :
    Follows d (ValRel T) (Surface.applyValue W (d.knot W r) f as)
      (Flat.applyValue W (d.call W T r) g bs) := by
  cases hf with
  | lit => exact .of_rel (W.call.run_rel (.cons .lit hargs))
  | atom => exact .of_rel (W.call.run_rel (.cons .atom hargs))
  | tuple h => exact .of_rel (W.call.run_rel (.cons (.tuple h) hargs))
  | @fn c g h =>
    obtain ⟨ref, ws⟩ := g
    simp only [Surface.applyValue, Flat.applyValue, h.isBuiltin hT, Bool.false_eq_true, if_false]
    exact hc c ⟨ref, ws⟩ h as bs hargs

/-- An expression and its code yield related values. -/
theorem ExprCode.keeps (hT : T.IsPlain) (hc : Calls d W T r) (hΓ : Agrees T names Γ env ρ) (e : Expr) :
    Keeps d W T r names Γ env ρ e := by
  induction e using Expr.ind with
  | name sp x =>
    intro n L h hm
    cases h with
    | name h => exact .of_rel (hΓ.read (hm (by simp [Expr.mentions])) h)
  | constant sp v =>
    intro n L h _
    cases h
    exact .some .lit
  | binary sp op l r ihl ihr =>
    intro n L h hm
    cases h with
    | binary hop hl hr =>
      rw [Expr.mentions, List.append_subset] at hm
      obtain ⟨hs, hi⟩ := builtin?_ne hop
      simp only [Surface.eval, hop]
      exact invoke_two hT hΓ hs hi (ihl hl hm.1) (ihr hr hm.2)
  | unary sp op x ih =>
    intro n L h hm
    cases h with
    | unary hop hx =>
      obtain ⟨hs, hi⟩ := builtin?_ne hop
      simp only [Surface.eval, hop]
      rw [Flat.eval_invoke hT hΓ.generated hs hi]
      simp only [Flat.evals, bind_assoc, pure_bind]
      exact (ih hx hm).bind fun v w hv => .of_rel (W.apply_rel _ (.cons hv .nil))
  | compare sp l op r ihl ihr =>
    intro n L h hm
    cases h with
    | compare hop hl hr =>
      rw [Expr.mentions, List.append_subset] at hm
      obtain ⟨hs, hi⟩ := builtin?_ne hop
      simp only [Surface.eval, hop]
      exact invoke_two hT hΓ hs hi (ihl hl hm.1) (ihr hr hm.2)
  | chain sp l rest hlen =>
    intro n L h _
    cases h
    simp at hlen
  | call sp f args ks ihf ihargs =>
    intro n L h hm
    cases h with
    | call hargs hf =>
      rw [Expr.mentions, List.append_subset] at hm
      simp only [Surface.eval, Flat.eval]
      exact (ihf hf hm.1).bind fun f g hfg => (hargs.keeps ihargs hm.2).bind fun as bs hbs =>
        hc.applyValue hT hfg hbs
  | attr sp v name ih =>
    intro n L h hm
    cases h with
    | @attr _ _ _ _ _ loc _ hv =>
      have hname : Follows d (ValRel T) (some (.lit (.string name)))
          (Flat.eval W T (d.call W T r) ρ (.value loc (.string name))) := .some .lit
      simp only [Surface.eval]
      exact invoke_two (f := "getattr") hT hΓ (by decide) (by decide) (ih hv hm) hname
  | subscript sp v i ihv ihi =>
    intro n L h hm
    cases h with
    | subscript hv hi =>
      rw [Expr.mentions, List.append_subset] at hm
      simp only [Surface.eval]
      exact invoke_two hT hΓ (by decide) (by decide) (ihv hv hm.1) (ihi hi hm.2)
  | slice sp a b c iha ihb ihc =>
    intro n L h hm
    cases h with
    | slice ha hb hc' =>
      rw [Expr.mentions, List.append_subset, List.append_subset] at hm
      rw [Surface.eval_slice]
      exact invoke_three hT hΓ (by decide) (by decide) (ha.keeps iha hm.1.1) (hb.keeps ihb hm.1.2)
        (hc'.keeps ihc hm.2)
  | extSlice sp es ih =>
    intro n L h hm
    cases h with
    | extSlice h =>
      simp only [Surface.eval, Flat.eval]
      exact (h.keeps ih hm).map fun vs ws => .tuple
  | tuple sp es ih =>
    intro n L h hm
    cases h with
    | tuple h =>
      simp only [Surface.eval, Flat.eval]
      exact (h.keeps ih hm).map fun vs ws => .tuple
  | lambda sp ps b ih =>
    intro n L h hm
    cases h with
    | lambda hrole hlen hl hb =>
      rw [Expr.mentions, List.append_subset] at hm
      exact hΓ.function hl hlen (.expr hb) rfl hm.2 (Expr.reads_subset b)
        (fun p hp => .inl (paramBindings_mem hp)) fun x _ => rfl
  | foreign e hf =>
    intro n L h _
    cases h <;> simp [Expr.isForeign] at hf

end Lowering

end Hoist
