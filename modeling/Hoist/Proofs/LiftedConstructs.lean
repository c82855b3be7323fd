import Hoist.Proofs.Lowering.Finished
import Hoist.Proofs.Lowering.Placement

/-!
# Every construct is lifted once

However often dry runs go through a construct, the table of its unit holds its lambdas once: one for
every function, two for every conditional and two for every loop, all of them behind those that are
nested in them. The function of the unit comes last. Its decorators are read but not lowered, so that a
lambda expression among them is not lifted.
-/

namespace Hoist.Lowering

open Hoist.Flat (Symbol Source Table Lambda)
open Hoist.Surface (Stmt Params Expr Module Labelled Accounts blockConstructs blockAssigns stmtSpans)

section Sizes

/-- What is matched with the items of a list is matched with those of its sublists. -/
theorem exists_forall₂_of_sublist {α β : Type} {R : α → β → Prop} {xs ys : List α} {zs : List β}
    (h : ys.Sublist xs) (hR : List.Forall₂ R xs zs) :
    ∃ ws, ws.Sublist zs ∧ List.Forall₂ R ys ws := by
  induction h generalizing zs with
  | slnil => exact ⟨[], List.nil_sublist _, .nil⟩
  | cons x _ ih =>
    obtain - | ⟨-, hrest⟩ := hR
    obtain ⟨ws, hws, hys⟩ := ih hrest
    exact ⟨ws, hws.cons _, hys⟩
  | cons_cons x _ ih =>
    obtain - | ⟨hx, hrest⟩ := hR
    obtain ⟨ws, hws, hys⟩ := ih hrest
    exact ⟨_ :: ws, hws.cons_cons _, .cons hx hys⟩

/-- The number of lambdas that the elements of a tree become: one for a function, two for a conditional
or a loop. -/
def lambdasOf (es : List Labelled) : Nat :=
  es.countP (·.label == "function definition") + es.countP (·.label == "lambda") +
    2 * es.countP (·.label == "if statement") + 2 * es.countP (·.label == "while loop")

theorem length_parts (es : List Labelled) : (es.flatMap Labelled.parts).length = lambdasOf es := by
  induction es with
  | nil => rfl
  | cons x es ih =>
    obtain ⟨label, span⟩ := x
    unfold lambdasOf at ih ⊢
    simp only [List.flatMap_cons, List.length_append, ih, List.countP_cons, Labelled.parts]
    by_cases h₁ : label = "function definition"
    · subst h₁
      simp
      omega
    by_cases h₂ : label = "lambda"
    · subst h₂
      simp
      omega
    by_cases h₃ : label = "if statement"
    · subst h₃
      simp
      omega
    by_cases h₄ : label = "while loop"
    · subst h₄
      simp
      omega
    · simp [h₁, h₂, h₃, h₄]

end Sizes

/-- A table holds the lambdas of all constructs of a function, and nothing else. -/
structure HoldsEach (env : Env) (entry : Stmt) (f : String) (T : Table) : Prop where
  /-- There is one lambda for each construct, in their order. -/
  each : List.Forall₂ (Stands env) (entry.constructs "") T.lambdas
  /-- The constructs are the functions, conditionals and loops of the tree, each as often as it has
  lambdas. -/
  accounts : Accounts (entry.constructs "") entry.spans
  size : T.size = lambdasOf entry.spans
  /-- What is nested in a construct is defined before it. -/
  nested : ∀ i c, (entry.constructs "")[i]? = some c →
    ∃ inner, inner.Sublist (T.lambdas.take i) ∧ List.Forall₂ (Stands env) c.inside inner
  last : ∃ l, T.lambdas.getLast? = some l ∧ l.ref = .global f

section Entries

variable {env : Env} {s t : State} {f : String} {ps : Params Expr} {ds : List Expr} {b : List Stmt}
  {items : List Item} {sp : Surface.Span}

/-- The function of a unit is placed behind its constructs. -/
theorem lowerFunction_places (hx : env.expansions = []) (hs : Root s)
    (h : Yields (Lower.lowerFunction env (env.locate sp) f ps ds true (Lower.lowerBlock env b)) s
      items t) :
    ∃ before l, t.table.lambdas = before ++ [l] ∧ l.ref = .global f ∧
      List.Forall₂ (Stands env) (blockConstructs f b) before ∧
      Stands env (.mk (.function ps.names.length) f sp (blockConstructs f b)) l := by
  obtain ⟨a, u, v, hu, ho, -, htable, hfree, hiff⟩ := entry_iff hx hs f ps ds b (env.locate sp)
  obtain ⟨-, formals, w, code, z, hw, hz, -, rfl⟩ := (hiff items t).1 h
  have hv := ho.valid hu
  have binds := bindFreshAll_code hw
  have e := bindFreshAll_effect hv hw
  have htop : w.body.topLevel = false := by rw [binds.body, ho.body]
  have hdest : w.body.dest.name = f := by rw [binds.body, ho.body]; rfl
  obtain ⟨items', hblock, -⟩ := functionBody_iff.1 hz
  obtain ⟨new, hnew, hstands⟩ := lowerBlock_places hx b e.valid htop hblock
  have hempty : w.table = .empty := binds.table.trans (ho.table.trans htable)
  have hlambdas : z.table.lambdas = new := by
    rw [hnew, hempty]
    rfl
  rw [hdest] at hstands
  refine ⟨new, ⟨.global f, formals, code, env.locate sp⟩, by rw [← hlambdas]; rfl, rfl, hstands, ?_⟩
  exact
    { name := rfl
      relation := rfl
      place := rfl
      params := fun k hk => by
        cases hk
        exact Nat.le_of_eq binds.length }

end Entries

theorem lowerModule_holdsEach {opts : Options} {m : Module} {source : Source} {log : String}
    {entry : Symbol} (ht : opts.table = .empty) (hx : opts.expansions = [])
    (h : (lowerModule m source opts log).result = .ok entry) :
    ∃ sp f ps b ds, m.body = [.functionDef sp f ps b ds] ∧ entry = .global f ∧
      HoldsEach ⟨source, opts.expansions, opts.verbose⟩ (.functionDef sp f ps b []) f
        (lowerModule m source opts log).table := by
  have haccepts := (lowerModule_succeeds ht hx m source log).1 ⟨entry, h⟩
  obtain ⟨t, hy, htable⟩ := lowerModule_iff.1 ⟨h, rfl⟩
  obtain ⟨sp, f, ps, b, ds, items, hm, rfl, hf⟩ := lowerEntry_iff.1 hy
  obtain ⟨before, l, hlambdas, hl, hbefore, hstands⟩ :=
    lowerFunction_places hx (rootState_root log ht) hf
  rw [htable] at hlambdas
  have hcs : (Stmt.functionDef sp f ps b []).constructs "" = blockConstructs f b ++
      [.mk (.function ps.names.length) f sp (blockConstructs f b)] := by
    rw [Stmt.constructs]
  have heach : List.Forall₂ (Stands ⟨source, opts.expansions, opts.verbose⟩)
      ((Stmt.functionDef sp f ps b []).constructs "") (lowerModule m source opts log).table.lambdas := by
    rw [hcs, hlambdas]
    exact List.rel_append hbefore (.cons hstands .nil)
  have haccounts : Accounts ((Stmt.functionDef sp f ps b []).constructs "")
      (Stmt.functionDef sp f ps b []).spans := by
    simp only [Module.accepts, hm, Bool.and_eq_true] at haccepts
    obtain ⟨⟨hps, hends⟩, hb⟩ := haccepts
    have haccepted : (Stmt.functionDef sp f ps b []).accepts blockAssigns true [] = true := by
      simp [Stmt.accepts, hps, hends, hb]
    exact Stmt.constructs_accounts _ "" true [] haccepted
  refine ⟨sp, f, ps, b, ds, hm, rfl, heach, haccounts, ?_, fun i c hc => ?_, l, ?_, hl⟩
  · rw [← length_parts, ← haccounts.length_eq, List.length_map, heach.length_eq]
    rfl
  · exact exists_forall₂_of_sublist (Stmt.constructs_insideOut _ _ i c hc) (List.forall₂_take i heach)
  · rw [hlambdas, List.getLast?_concat]

/-- Every construct of a unit is lifted once, but for what is in the decorators of its function. -/
theorem lowerSource_holdsEach {source : Source} {issued : Nat} {verbose : Bool} {entry : Symbol}
    (h : (lowerSource source { issued := issued, verbose := verbose }).result = .ok entry) :
    ∃ m sp f ps b ds, Surface.readModule source.text = .ok m ∧ m.body = [.functionDef sp f ps b ds] ∧
      entry = .global f ∧
      HoldsEach ⟨source, [], verbose⟩ (.functionDef sp f ps b []) f
        (lowerSource source { issued := issued, verbose := verbose }).table := by
  unfold lowerSource at h ⊢
  cases hm : Surface.readModule source.text with
  | error fault =>
    simp only [hm] at h
    cases h
  | ok m =>
    simp only [hm] at h
    obtain ⟨sp, f, ps, b, ds, hbody, hentry, hholds⟩ := lowerModule_holdsEach rfl rfl h
    exact ⟨m, sp, f, ps, b, ds, rfl, hbody, hentry, hholds⟩

/-- A lambda expression in a loop in a loop. -/
def nestedLoops : Source where
  serial := 0
  url := "test.py"
  firstLine := 1
  text := ("def f(n):\n    while n:\n        while n:\n            n = (lambda z: z)(n)\n" ++
    "    return n\n").toList

theorem nestedLoops_lowered : (lowerSource nestedLoops {}).result = .ok (.global "f") := by
  have h : (lowerSource nestedLoops {}).result.toOption = some (.global "f") := by decide +kernel
  cases hr : (lowerSource nestedLoops {}).result with
  | ok entry =>
    rw [hr] at h
    cases h
    rfl
  | error fault =>
    rw [hr] at h
    cases h

/-- What three dry runs go through is in the table once. -/
theorem nestedLoops_holdsEach :
    ((lowerSource nestedLoops {}).table.lambdas.map fun l => (l.ref.name, l.ref.relation)) =
        [("lambda", ""), ("f/loop/continue", "continue"), ("f/loop/loop", "loop"),
          ("f/continue", "continue"), ("f/loop", "loop"), ("f", "")] ∧
      ∃ m sp f ps b ds, Surface.readModule nestedLoops.text = .ok m ∧
        m.body = [.functionDef sp f ps b ds] ∧ Symbol.global "f" = .global f ∧
        HoldsEach ⟨nestedLoops, [], false⟩ (.functionDef sp f ps b []) f
          (lowerSource nestedLoops {}).table :=
  ⟨by decide +kernel, lowerSource_holdsEach nestedLoops_lowered⟩

/-- A function that is decorated by a lambda expression. -/
def decoratedByLambda : Source where
  serial := 0
  url := "test.py"
  firstLine := 1
  text := "@lambda x: x\ndef f(y):\n    return y\n".toList

/-- A unit need not hold a lambda for every function among all elements of its tree: what is in the
decorators of the entry is not lifted. -/
theorem decoration_not_lifted :
    (lowerSource decoratedByLambda {}).result.toOption = some (.global "f") ∧
      ∃ m, Surface.readModule decoratedByLambda.text = .ok m ∧
        (lowerSource decoratedByLambda {}).table.size ≠ lambdasOf (stmtSpans m.body) := by
  refine ⟨by decide +kernel, ?_⟩
  have h : (Surface.readModule decoratedByLambda.text).toOption.map
      (fun m => lambdasOf (stmtSpans m.body)) = some 2 := by decide +kernel
  have hsize : (lowerSource decoratedByLambda {}).table.size = 1 := by decide +kernel
  cases hm : Surface.readModule decoratedByLambda.text with
  | error fault =>
    rw [hm] at h
    cases h
  | ok m =>
    rw [hm] at h
    have hcount : lambdasOf (stmtSpans m.body) = 2 := Option.some.inj h
    refine ⟨m, rfl, ?_⟩
    rw [hsize, hcount]
    decide

end Hoist.Lowering
