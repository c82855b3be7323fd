import Hoist.Proofs.Lowering.Code
import Hoist.Proofs.Surface.Accepted
import Hoist.Surface.Tree.Spans

/-!
# The constructs that become lambdas

A function becomes a lambda, a conditional and a loop become two each. The constructs of a tree are
listed in the order in which their lambdas are to be defined, and each lists those that are nested in
its body. They are the functions, conditionals and loops among the elements of the tree, none of them
missing and none of them twice.
-/

namespace Hoist

namespace Lowering

open Hoist.Surface (Span)

/-- A lambda to be expected: what it is for, its name without a number, the piece of text it comes from,
and the lambdas to be expected for the inside of its body. -/
inductive Construct
  | mk (role : Role) (name : String) (span : Span) (inside : List Construct)

namespace Construct

/-- What the lambda is for. -/
def role : Construct → Role
  | .mk role _ _ _ => role

/-- The name of the lambda, without its number. -/
def name : Construct → String
  | .mk _ name _ _ => name

/-- The piece of text that the lambda comes from. -/
def span : Construct → Span
  | .mk _ _ span _ => span

/-- The constructs nested in the body. -/
def inside : Construct → List Construct
  | .mk _ _ _ inside => inside

/-- What part of which piece of text becomes the lambda. -/
def part (c : Construct) : String × Span := (c.role.tag, c.span)

end Construct

/-- The name of a part of a body with a name. -/
def partName (path : String) (role : Role) : String := path ++ "/" ++ role.tag

/-- Two parts of a conditional, the branch that is taken when the test holds before the other one. -/
def branches (path : String) (span : Span) (whenTrue whenFalse : List Construct) : List Construct :=
  [.mk .whenTrue (partName path .whenTrue) span whenTrue,
    .mk .whenFalse (partName path .whenFalse) span whenFalse]

/-- The two parts of a loop over what is nested in it: first its body, then the choice of another turn. -/
def turns (path : String) (span : Span) (nested : List Construct) : List Construct :=
  let next := .mk .next (partName path .next) span nested
  [next, .mk .loop (partName path .loop) span (nested ++ [next])]

/-- Every construct comes behind those that are nested in its body. -/
def InsideOut (cs : List Construct) : Prop :=
  ∀ (i : Nat) (c : Construct), cs[i]? = some c → c.inside.Sublist (cs.take i)

namespace InsideOut

variable {cs ds : List Construct} {path : String} {span : Span}

theorem nil : InsideOut [] := by
  intro i c hc
  simp at hc

/-- More constructs may be nested in what comes before them. -/
theorem extend (h : InsideOut cs)
    (h' : ∀ (i : Nat) (c : Construct), ds[i]? = some c → c.inside.Sublist (cs ++ ds.take i)) :
    InsideOut (cs ++ ds) := by
  intro i c hc
  by_cases hi : i < cs.length
  · rw [List.getElem?_append_left hi] at hc
    rw [List.take_append_of_le_length (Nat.le_of_lt hi)]
    exact h i c hc
  · have hle : cs.length ≤ i := Nat.le_of_not_lt hi
    rw [List.getElem?_append_right hle] at hc
    rw [List.take_append, List.take_of_length_le hle]
    exact h' _ c hc

theorem append (h : InsideOut cs) (h' : InsideOut ds) : InsideOut (cs ++ ds) :=
  h.extend fun i c hc => (h' i c hc).trans (List.sublist_append_right cs _)

/-- A function comes behind what is nested in it. -/
theorem concat (h : InsideOut cs) {c : Construct} (hc : c.inside.Sublist cs) : InsideOut (cs ++ [c]) := by
  refine h.extend fun i d hd => ?_
  rw [List.getElem?_singleton] at hd
  split at hd
  · cases hd
    exact hc.trans (List.sublist_append_left _ _)
  · cases hd

theorem branches (h : InsideOut cs) {whenTrue whenFalse : List Construct}
    (hT : whenTrue.Sublist cs) (hF : whenFalse.Sublist cs) :
    InsideOut (cs ++ branches path span whenTrue whenFalse) := by
  have h₁ := h.concat (c := .mk .whenTrue (partName path .whenTrue) span whenTrue) hT
  have h₂ := h₁.concat (c := .mk .whenFalse (partName path .whenFalse) span whenFalse)
    (hF.trans (List.sublist_append_left _ _))
  simpa [Lowering.branches] using h₂

theorem turns (h : InsideOut cs) : InsideOut (cs ++ turns path span cs) := by
  have h₁ := h.concat (c := .mk .next (partName path .next) span cs) (List.Sublist.refl cs)
  have h₂ := h₁.concat (c := .mk .loop (partName path .loop) span _) (List.Sublist.refl _)
  simpa [Lowering.turns] using h₂

end InsideOut

end Lowering

namespace Surface

open Hoist.Lowering (Construct Role partName branches turns InsideOut)

mutual

/-- The constructs in an expression: arguments come before what is called, and the inside of a lambda
expression before the expression. -/
def Expr.constructs : Expr → List Construct
  | .binary _ _ l r => l.constructs ++ r.constructs
  | .unary _ _ x => x.constructs
  | .compare _ l [(_, r)] => l.constructs ++ r.constructs
  | .call _ f args _ => allConstructs args ++ f.constructs
  | .attribute _ v _ => v.constructs
  | .subscript _ v i => v.constructs ++ i.constructs
  | .slice _ a b c => optConstructs a ++ optConstructs b ++ optConstructs c
  | .extSlice _ es | .tuple _ es => allConstructs es
  | .lambda sp ps b =>
    b.constructs ++ [.mk (.function ps.names.length) "lambda" sp b.constructs]
  | _ => []

/-- The constructs in expressions. -/
def allConstructs : List Expr → List Construct
  | [] => []
  | e :: es => e.constructs ++ allConstructs es

/-- The constructs in an expression, if there is one. -/
def optConstructs : Option Expr → List Construct
  | none => []
  | some e => e.constructs

end

/-- The constructs in a place that a value is stored at. -/
def targetConstructs : List Expr → List Construct
  | [.subscript _ (.name _ _) i] => i.constructs
  | _ => []

mutual

/-- The constructs in a statement of a body with a name: a value comes before the place it is stored
at, and the inside of a function, a branch or a loop before it. -/
def Stmt.constructs (path : String) : Stmt → List Construct
  | .expr _ v => v.constructs
  | .assign _ ts v => v.constructs ++ targetConstructs ts
  | .augAssign _ _ _ v => v.constructs
  | .functionDef sp f ps b _ =>
    blockConstructs f b ++ [.mk (.function ps.names.length) f sp (blockConstructs f b)]
  | .returnValue _ v => optConstructs v
  | .ifElse sp t b o =>
    t.constructs ++ blockConstructs (partName path .whenTrue) b ++
      blockConstructs (partName path .whenFalse) o ++
      branches path sp (blockConstructs (partName path .whenTrue) b)
        (blockConstructs (partName path .whenFalse) o)
  | .whileLoop sp t b _ =>
    t.constructs ++ blockConstructs (partName path .loop) b ++
      turns path sp (t.constructs ++ blockConstructs (partName path .loop) b)
  | _ => []

/-- The constructs in statements of a body with a name. -/
def blockConstructs (path : String) : List Stmt → List Construct
  | [] => []
  | s :: b => s.constructs path ++ blockConstructs path b

end

section Order

theorem allConstructs_insideOut {es : List Expr} (ih : ∀ e ∈ es, InsideOut e.constructs) :
    InsideOut (allConstructs es) := by
  induction es with
  | nil => exact .nil
  | cons e es ihs =>
    rw [allConstructs]
    exact (ih e (by simp)).append (ihs fun e' he' => ih e' (List.mem_cons_of_mem _ he'))

theorem optConstructs_insideOut {o : Option Expr} (ih : ∀ e ∈ o, InsideOut e.constructs) :
    InsideOut (optConstructs o) := by
  cases o with
  | none => exact .nil
  | some e => exact ih e rfl

theorem Expr.constructs_insideOut (e : Expr) : InsideOut e.constructs := by
  induction e using Expr.ind with
  | name sp x => exact .nil
  | constant sp v => exact .nil
  | binary sp op l r ihl ihr => exact ihl.append ihr
  | unary sp op x ih => exact ih
  | compare sp l op r ihl ihr => exact ihl.append ihr
  | chain sp l rest hlen =>
    rcases rest with - | ⟨r, - | ⟨_, _⟩⟩
    · exact .nil
    · exact absurd rfl hlen
    · exact .nil
  | call sp f args ks ihf ihargs => exact (allConstructs_insideOut ihargs).append ihf
  | attr sp v a ih => exact ih
  | subscript sp v i ihv ihi => exact ihv.append ihi
  | slice sp a b c iha ihb ihc =>
    exact ((optConstructs_insideOut iha).append (optConstructs_insideOut ihb)).append
      (optConstructs_insideOut ihc)
  | extSlice sp es ih => exact allConstructs_insideOut ih
  | tuple sp es ih => exact allConstructs_insideOut ih
  | lambda sp ps b ih => exact ih.concat (List.Sublist.refl _)
  | foreign e hf => cases e <;> simp [Expr.isForeign] at hf <;> exact .nil

theorem blockConstructs_insideOut {b : List Stmt} {path : String}
    (ih : ∀ s ∈ b, ∀ path, InsideOut (s.constructs path)) : InsideOut (blockConstructs path b) := by
  induction b with
  | nil => exact .nil
  | cons s b ihb =>
    rw [blockConstructs]
    exact (ih s (by simp) path).append (ihb fun s' hs' => ih s' (List.mem_cons_of_mem _ hs'))

/-- In a statement every construct comes behind those that are nested in its body. -/
theorem Stmt.constructs_insideOut (s : Stmt) : ∀ path, InsideOut (s.constructs path) := by
  induction s using Stmt.ind with
  | expr sp v => exact fun _ => v.constructs_insideOut
  | assign sp ts v =>
    refine fun _ => v.constructs_insideOut.append ?_
    unfold targetConstructs
    split
    · exact Expr.constructs_insideOut _
    · exact .nil
  | augAssign sp t op v => exact fun _ => v.constructs_insideOut
  | functionDef sp f ps b ds ih =>
    exact fun _ => (blockConstructs_insideOut ih).concat (List.Sublist.refl _)
  | returnValue sp v => exact fun _ => optConstructs_insideOut fun e _ => e.constructs_insideOut
  | ifElse sp t b o ihb iho =>
    intro path
    refine InsideOut.branches ((t.constructs_insideOut.append (blockConstructs_insideOut ihb)).append
      (blockConstructs_insideOut iho)) ?_ (List.sublist_append_right _ _)
    exact (List.sublist_append_right _ _).trans (List.sublist_append_left _ _)
  | whileLoop sp t b o ih =>
    exact fun _ => InsideOut.turns (t.constructs_insideOut.append (blockConstructs_insideOut ih))
  | foreign s hf => cases s <;> simp [Stmt.isForeign] at hf <;> exact fun _ => .nil

end Order

/-- The parts of a text that become lambdas because of an element of its tree. -/
def Labelled.parts (x : Labelled) : List (String × Span) :=
  if x.label = "function definition" ∨ x.label = "lambda" then [("", x.span)]
  else if x.label = "if statement" then [("then", x.span), ("else", x.span)]
  else if x.label = "while loop" then [("continue", x.span), ("loop", x.span)]
  else []

/-- The constructs are those that the elements of a tree give rise to. -/
def Accounts (cs : List Construct) (es : List Labelled) : Prop :=
  (cs.map Construct.part).Perm (es.flatMap Labelled.parts)

namespace Accounts

variable {cs ds : List Construct} {es fs : List Labelled} {x : Labelled}

theorem nil : Accounts [] [] := .refl _

theorem append (h : Accounts cs es) (h' : Accounts ds fs) : Accounts (cs ++ ds) (es ++ fs) := by
  unfold Accounts
  rw [List.map_append, List.flatMap_append]
  exact List.Perm.append h h'

theorem swap (h : Accounts cs es) (h' : Accounts ds fs) : Accounts (cs ++ ds) (fs ++ es) := by
  have := h'.append h
  unfold Accounts at this ⊢
  rw [List.map_append] at this ⊢
  exact List.perm_append_comm.trans this

/-- An element whose own constructs come behind those of its parts. -/
theorem behind (h : Accounts cs es) (hx : x.parts = ds.map Construct.part) :
    Accounts (cs ++ ds) (x :: es) := by
  unfold Accounts at h ⊢
  rw [List.map_append, List.flatMap_cons, hx]
  exact List.perm_append_comm.trans (h.append_left _)

theorem cons (h : Accounts cs es) (hx : x.parts = []) : Accounts cs (x :: es) := by
  have : Accounts (cs ++ []) (x :: es) := h.behind hx
  rwa [List.append_nil] at this

/-- Plain parameters give rise to nothing. -/
theorem params {ps : Params Expr} (h : ps.isPositional = true) : Accounts [] (paramsSpans ps) := by
  obtain ⟨pos, va, ko, kw, ds, kds⟩ := ps
  simp only [Params.isPositional, Bool.and_eq_true, Option.isNone_iff_eq_none,
    List.isEmpty_iff] at h
  obtain ⟨⟨⟨⟨rfl, rfl⟩, rfl⟩, rfl⟩, rfl⟩ := h
  have hnone : (pos.map fun p => (⟨"arg", p.span⟩ : Labelled)).flatMap Labelled.parts = [] := by
    simp [List.flatMap_map, Labelled.parts]
  unfold Accounts
  simp [paramsSpans, paramSpans, exprSpans, hnone]

end Accounts

section Accounting

variable {es : List Expr} {o : Option Expr} {b : List Stmt}

theorem allConstructs_accounts
    (ih : ∀ e ∈ es, e.isSupported = true → Accounts e.constructs e.spans)
    (h : allSupported es = true) : Accounts (allConstructs es) (exprSpans es) := by
  induction es with
  | nil => exact .nil
  | cons e es ihs =>
    rw [allSupported, Bool.and_eq_true] at h
    exact (ih e (by simp) h.1).append (ihs (fun e' he' => ih e' (List.mem_cons_of_mem _ he')) h.2)

theorem optConstructs_accounts
    (ih : ∀ e ∈ o, e.isSupported = true → Accounts e.constructs e.spans)
    (h : optSupported o = true) : Accounts (optConstructs o) (optionSpans o) := by
  cases o with
  | none => exact .nil
  | some e => exact ih e rfl h

/-- The constructs of a supported expression are its lambda expressions. -/
theorem Expr.constructs_accounts (e : Expr) :
    e.isSupported = true → Accounts e.constructs e.spans := by
  induction e using Expr.ind with
  | name sp x => exact fun _ => Accounts.nil.cons rfl
  | constant sp v => exact fun _ => Accounts.nil.cons rfl
  | binary sp op l r ihl ihr =>
    intro h
    simp only [isSupported, Bool.and_eq_true] at h
    exact ((ihl h.1.2).append (ihr h.2)).cons rfl
  | unary sp op x ih =>
    intro h
    simp only [isSupported, Bool.and_eq_true] at h
    exact (ih h.2).cons rfl
  | compare sp l op r ihl ihr =>
    intro h
    simp only [isSupported, Bool.and_eq_true] at h
    have := ((ihl h.1.2).append (ihr h.2)).cons (x := ⟨"comparison", sp⟩) rfl
    simpa [constructs, Expr.spans, describe, Expr.span, comparisonSpans] using this
  | chain sp l rest hlen =>
    rcases rest with - | ⟨r, - | ⟨_, _⟩⟩
    · exact fun h => absurd h Bool.false_ne_true
    · exact absurd rfl hlen
    · exact fun h => absurd h Bool.false_ne_true
  | call sp f args ks ihf ihargs =>
    intro h
    simp only [isSupported, Bool.and_eq_true, List.isEmpty_iff] at h
    obtain ⟨⟨rfl, hargs⟩, hf⟩ := h
    have := ((allConstructs_accounts ihargs hargs).swap (ihf hf)).cons (x := ⟨"call", sp⟩) rfl
    simpa [constructs, Expr.spans, describe, Expr.span, keywordSpans] using this
  | attr sp v a ih => exact fun h => (ih h).cons rfl
  | subscript sp v i ihv ihi =>
    intro h
    simp only [isSupported, Bool.and_eq_true] at h
    exact ((ihv h.1).append (ihi h.2)).cons rfl
  | slice sp a b c iha ihb ihc =>
    intro h
    simp only [isSupported, Bool.and_eq_true] at h
    exact (((optConstructs_accounts iha h.1.1).append (optConstructs_accounts ihb h.1.2)).append
      (optConstructs_accounts ihc h.2)).cons rfl
  | extSlice sp es ih => exact fun h => (allConstructs_accounts ih h).cons rfl
  | tuple sp es ih => exact fun h => (allConstructs_accounts ih h).cons rfl
  | lambda sp ps b ih =>
    intro h
    simp only [isSupported, Bool.and_eq_true] at h
    exact ((Accounts.params h.1).append (ih h.2)).behind rfl
  | foreign e hf =>
    cases e <;> simp [Expr.isForeign] at hf <;> exact fun h => absurd h Bool.false_ne_true

variable {assigned : List Stmt → List String} {mayReturn : Bool} {declared : List String}
  {path : String}

theorem blockConstructs_accounts
    (ih : ∀ s ∈ b, ∀ path mayReturn declared, s.accepts assigned mayReturn declared = true →
      Accounts (s.constructs path) s.spans)
    (h : blockAccepts assigned mayReturn declared b = true) :
    Accounts (blockConstructs path b) (stmtSpans b) := by
  induction b generalizing declared with
  | nil => exact .nil
  | cons s b ihb =>
    simp only [blockAccepts, Bool.and_eq_true] at h
    exact (ih s (by simp) path _ _ h.1.1).append
      (ihb (fun s' hs' => ih s' (List.mem_cons_of_mem _ hs')) h.2)

/-- The constructs of an accepted statement are the functions, conditionals and loops in it, with their
parts. -/
theorem Stmt.constructs_accounts (s : Stmt) : ∀ path mayReturn declared,
    s.accepts assigned mayReturn declared = true → Accounts (s.constructs path) s.spans := by
  induction s using Stmt.ind with
  | expr sp v => exact fun _ _ _ h => (v.constructs_accounts h).cons rfl
  | assign sp ts v =>
    intro path mayReturn declared h
    rcases ts with - | ⟨target, - | ⟨_, _⟩⟩
    · simp [accepts] at h
    · simp only [accepts, List.all_cons, List.all_nil, Bool.and_true, Bool.and_eq_true] at h
      have hv := v.constructs_accounts h.2
      cases target <;> simp [Expr.isTarget] at h
      case name sp' x =>
        have := hv.cons (x := ⟨"name", sp'⟩) rfl |>.cons (x := ⟨"assignment", sp⟩) rfl
        simpa [constructs, targetConstructs, Stmt.spans, Expr.spans, describe, Expr.describe, Stmt.span,
          Expr.span, exprSpans] using this
      case subscript sp' object index =>
        cases object <;> simp [Expr.name?] at h
        rename_i sp'' x
        have hi := index.constructs_accounts h.1
        have := ((hv.swap hi).cons (x := ⟨"name", sp''⟩) rfl).cons (x := ⟨"subscript", sp'⟩) rfl |>.cons
          (x := ⟨"assignment", sp⟩) rfl
        simpa [constructs, targetConstructs, Stmt.spans, Expr.spans, describe, Expr.describe, Stmt.span,
          Expr.span, exprSpans] using this
    · simp [accepts] at h
  | augAssign sp t op v =>
    intro path mayReturn declared h
    simp only [accepts, Bool.and_eq_true] at h
    cases t <;> simp [Expr.name?] at h
    rename_i sp' x
    have := (v.constructs_accounts h.2).cons (x := ⟨"name", sp'⟩) rfl |>.cons
      (x := ⟨"augmented assignment", sp⟩) rfl
    simpa [constructs, Stmt.spans, Expr.spans, describe, Expr.describe, Stmt.span, Expr.span] using this
  | functionDef sp f ps b ds ih =>
    intro path mayReturn declared h
    simp only [accepts, Bool.and_eq_true, List.isEmpty_iff] at h
    obtain ⟨⟨⟨hps, rfl⟩, -⟩, hb⟩ := h
    exact ((Accounts.params hps).append (blockConstructs_accounts ih hb)).behind rfl
  | returnValue sp v =>
    intro path mayReturn declared h
    simp only [accepts, Bool.and_eq_true] at h
    exact (optConstructs_accounts (fun e _ => e.constructs_accounts) h.2).cons rfl
  | ifElse sp t b o ihb iho =>
    intro path mayReturn declared h
    simp only [accepts, Bool.and_eq_true] at h
    exact (((t.constructs_accounts h.1.1.1.1).append (blockConstructs_accounts ihb h.1.1.1.2)).append
      (blockConstructs_accounts iho h.1.1.2)).behind rfl
  | whileLoop sp t b o ih =>
    intro path mayReturn declared h
    simp only [accepts, Bool.and_eq_true, List.isEmpty_iff] at h
    obtain ⟨⟨⟨rfl, ht⟩, hb⟩, -⟩ := h
    have hinside : Accounts (t.constructs ++ blockConstructs (partName path .loop) b)
        (t.spans ++ stmtSpans b ++ stmtSpans []) := by
      rw [stmtSpans.eq_1, List.append_nil]
      exact (t.constructs_accounts ht).append (blockConstructs_accounts ih hb)
    exact hinside.behind rfl
  | foreign s hf =>
    cases s <;> simp [Stmt.isForeign] at hf <;> exact fun _ _ _ h => absurd h Bool.false_ne_true

end Accounting

end Surface

end Hoist
